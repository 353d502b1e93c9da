import OmniPaxosKV.Numbering
import OmniPaxosKV.Speculation

-- What two replicas know of each other's requests when their history hashes agree.
namespace OmniPaxosKV.Identity
open Machine Transitions History Requests Network Agreement OmniPaxosKV.Numbering

variable {n : Nat}

-- The client's request, by its number at the proxy, that a replica's command came from.
def requestOf (c : Cluster n) (i : Fin n) (command : Command) : Option Nat := (c.arrivals i)[command.privateId]?

-- Each client numbers its requests from zero.
def FromZero (c : Cluster n) : Cluster.Act n → Prop
  | .proxy (.request conn (.append id _)) => id.toNat = c.proxy.requests.countP fun request => request.1 = conn
  | _ => True

instance (c : Cluster n) : (action : Cluster.Act n) → Decidable (FromZero c action)
  | .proxy (.request _ (.append ..)) => Nat.decEq _ _
  | .proxy (.request _ (.ack ..)) | .proxy (.connect ..) | .proxy (.forward ..) | .proxy (.disconnect ..)
  | .proxy (.receive ..) | .proxy (.get ..) | .proxy (.put ..) | .proxy (.confirm ..) | .proxy (.respond ..)
  | .proxy (.delete ..) | .take .. | .deliver .. | .exchange .. | .server .. => instDecidableTrue

-- Equal hashes of two histories, whole logs or what they were before, mean the
-- same requests of the same clients.
def Identified (hasher : List UInt8 → UInt64) (c : Cluster n) : Prop :=
  ∀ i j len len', hasher (((c.servers i).log.take len).flatMap Command.hash) =
      hasher (((c.servers j).log.take len').flatMap Command.hash) →
    ((c.servers i).log.take len).map (requestOf c i) = ((c.servers j).log.take len').map (requestOf c j)

-- One request, or the requests of two clients that read alike.
def Alike (c : Cluster n) (i j : Fin n) (a b : Command) : Prop :=
  ∃ number number' conn conn' m, requestOf c i a = some number ∧ requestOf c j b = some number' ∧
    c.proxy.requests[number]? = some (conn,m) ∧ c.proxy.requests[number']? = some (conn',m) ∧
    (number = number' ∨ conn ≠ conn')

-- The number in a request counts the requests before it on its connection.
def Counted (requests : List (Nat × ClientMessage)) : Prop :=
  ∀ (number : Nat) conn id kv, requests[number]? = some (conn,.append id kv) →
    id.toNat = (requests.take number).countP fun request => request.1 = conn

section
variable {requests : List (Nat × ClientMessage)} {number number' conn : Nat} {m : ClientMessage} {id id' : CommandId}

theorem counted_concat (counted : Counted requests)
    (last : ∀ id kv, m = .append id kv → id.toNat = requests.countP fun request => request.1 = conn) :
    Counted (requests++[(conn,m)]) := by
  intro number conn' id kv found
  rcases getElem?_concat_cases found with old | ⟨rfl,same⟩
  · rw [List.take_append_of_le_length (Nat.le_of_lt (List.getElem?_eq_some_iff.mp old).1)]
    exact counted number conn' id kv old
  · cases same
    rw [List.take_left]
    exact last id kv rfl

-- Later requests of one connection have greater numbers.
theorem Counted.less (counted : Counted requests) (one : requests[number]? = some (conn,.append id kv))
    (two : requests[number']? = some (conn,.append id' kv')) (less : number < number') : id.toNat < id'.toNat := by
  have next : (requests.take (number+1)).countP (fun request => request.1 = conn) =
      (requests.take number).countP (fun request => request.1 = conn)+1 := by
    rw [List.take_add_one,one,List.countP_append]
    simp
  have more : (requests.take (number+1)).countP (fun request => request.1 = conn) ≤
      (requests.take number').countP (fun request => request.1 = conn) :=
    (List.take_sublist_take_left less).countP_le
  rw [counted number conn id kv one,counted number' conn id' kv' two]
  omega

theorem Counted.same (counted : Counted requests) (one : requests[number]? = some (conn,.append id kv))
    (two : requests[number']? = some (conn,.append id kv')) : number = number' := by
  rcases Nat.lt_trichotomy number number' with less | same | more
  · exact absurd (counted.less one two less) (Nat.lt_irrefl _)
  · exact same
  · exact absurd (counted.less two one more) (Nat.lt_irrefl _)

end

theorem counted_moves {c next : Cluster n} (counted : Counted c.proxy.requests) (fromZero : FromZero c action)
    (ran : Moves hasher c action next) : Counted next.proxy.requests := by
  cases ran with
  | proxy internal moved =>
    cases moved with
    | request found =>
      refine counted_concat counted ?_
      intro id kv same
      subst same
      exact fromZero
    | put found => rw [(put_kept ..).1]; exact counted
    | confirm found pending =>
      unfold Proxy.confirm
      split
      · rw [(confirmRest_kept ..).1]; exact counted
      · exact counted
    | respond found => unfold Proxy.respond; split <;> exact counted
    | receive found => cases internal
    | _ => exact counted
  | take found source message fresh moved =>
    rename_i conn connection place m proxy i
    cases moved with
    | receive there => cases m <;> exact counted
  | deliver => rw [arrive_proxy]; exact counted
  | exchange | server => exact counted

-- The request behind an entry of a replica's log.
theorem log_requested {c : Cluster n} (known : Known hasher faultTolerance c) (numbered : Numbered c)
    (member : command ∈ (c.servers i).log) : ∃ number conn, requestOf c i command = some number ∧
      c.proxy.requests[number]? = some (conn,.append command.id command.kvCmd) := by
  obtain ⟨owner,owned⟩ := known.owned i
  obtain ⟨k,found⟩ := List.mem_iff_getElem?.mp member
  obtain ⟨p,deadline,there,same⟩ := Speculation.log_original (known.valid.storing i) owned found
  obtain ⟨number,conn,arrived,asked⟩ := numbered.asked i _ p there
  refine ⟨number,conn,arrived,?_⟩
  rw [same]
  exact asked

theorem alike_of_keys {c : Cluster n} (known : Known hasher faultTolerance c) (numbered : Numbered c)
    (counted : Counted c.proxy.requests) (member : a ∈ (c.servers i).log) (member' : b ∈ (c.servers j).log)
    (same : a.key = b.key) : Alike c i j a b := by
  obtain ⟨number,conn,here,asked⟩ := log_requested known numbered member
  obtain ⟨number',conn',there,asked'⟩ := log_requested known numbered member'
  obtain ⟨ids,kvs⟩ : a.id = b.id ∧ a.kvCmd = b.kvCmd := Prod.ext_iff.mp same
  rw [←ids,←kvs] at asked'
  refine ⟨number,number',conn,conn',_,here,there,asked,asked',?_⟩
  by_cases client : conn = conn'
  · subst client
    exact .inl (counted.same asked asked')
  · exact .inr client

-- Agreement on the hash is agreement on ids and commands: what tells two
-- clients apart is not in it.
theorem hash_identifies_commands (hasher : List UInt8 → UInt64) (configs : Fin n → ServerConfig)
    (times : Fin n → SystemTime) (faultTolerance : Nat) (initial c : Cluster n) (actions : List (Cluster.Act n))
    (created : Cluster.new configs times faultTolerance = some initial)
    (path : Runs (Cluster.step hasher) FromZero initial actions c) (injective : Set.InjOn hasher (streams c))
    (i j : Fin n) (len len' : Nat) (same : hasher (((c.servers i).log.take len).flatMap Command.hash) =
      hasher (((c.servers j).log.take len').flatMap Command.hash)) :
    List.Forall₂ (Alike c i j) ((c.servers i).log.take len) ((c.servers j).log.take len') := by
  have start : Counted initial.proxy.requests := by
    cases Cluster.new_eq created
    intro number conn id kv found
    simp at found
  have all := path.invariant (fun c => Known hasher faultTolerance c ∧ Numbered c ∧ Counted c.proxy.requests) ?_
    ⟨known_new created,numbered_new created,start⟩
  · obtain ⟨known,numbered,counted⟩ := all
    have keys : ((c.servers i).log.take len).map Command.key = ((c.servers j).log.take len').map Command.key :=
      stream_injective (injective ⟨i,len,rfl⟩ ⟨j,len',rfl⟩ same)
    have pairs : List.Forall₂ (fun a b => a.key = b.key) ((c.servers i).log.take len) ((c.servers j).log.take len') :=
      List.forall₂_map_left_iff.mp (List.forall₂_map_right_iff.mp (by rw [List.forall₂_eq_eq_eq]; exact keys))
    rw [List.forall₂_iff_zip] at pairs ⊢
    refine ⟨pairs.1,?_⟩
    intro a b member
    obtain ⟨here,there⟩ := List.of_mem_zip member
    exact alike_of_keys known numbered counted (List.mem_of_mem_take here) (List.mem_of_mem_take there) (pairs.2 member)
  · intro c action next holds fromZero ran
    obtain ⟨known,numbered,counted⟩ := holds
    have moved := moves_sound ran
    exact ⟨known_moves known moved,numbered_moves known numbered moved,counted_moves counted fromZero moved⟩

-- Two clients send their first request, which is the same text; one reaches the
-- first replica, the other one the second.
def twinRequests : List (Cluster.Act 3) :=
  startUp++Cluster.Act.proxy (.request 0 (.append 0 (.put "0" "0")))::.proxy (.request 1 (.append 0 (.put "0" "0")))::
  relay 0 [1,2]++relay 1 [0]++[Cluster.Act.deliver 0,.deliver 2]++acknowledge first 0++acknowledge second 0

-- Both replicas have logged one entry, under one hash.
def OneHash (c : Cluster 3) : Prop :=
  SipHash.hash (((c.servers first).log.take 1).flatMap Command.hash) =
    SipHash.hash (((c.servers second).log.take 1).flatMap Command.hash) ∧
  (c.servers first).log.length = 1 ∧ (c.servers second).log.length = 1

instance (c : Cluster 3) : Decidable (OneHash c) := inferInstanceAs (Decidable (_ ∧ _ ∧ _))

theorem hash_identifies_twins : ∃ c : Cluster 3,
    Runs (Cluster.step SipHash.hash) FromZero sampleCluster twinRequests c ∧ OneHash c ∧
    List.Forall₂ (Alike c first second) ((c.servers first).log.take 1) ((c.servers second).log.take 1) := by
  obtain ⟨c,path,distinguished,oneHash⟩ := run_reaches (Cluster.step SipHash.hash) FromZero
    (fun c => Distinguished SipHash.hash c ∧ OneHash c) sampleCluster twinRequests (by decide +kernel)
  exact ⟨c,path,oneHash,hash_identifies_commands SipHash.hash sampleConfig (fun _ => Duration.fromMillis 1000) 1
    sampleCluster c twinRequests rfl path (injOn_of_distinguished distinguished) first second 1 1 oneHash.1⟩

theorem hash_confuses_clients : ¬ ∀ (n : Nat) (configs : Fin n → ServerConfig) (times : Fin n → SystemTime)
    (faultTolerance : Nat) (initial c : Cluster n) (actions : List (Cluster.Act n)),
    Cluster.new configs times faultTolerance = some initial →
    Runs (Cluster.step SipHash.hash) FromZero initial actions c → Set.InjOn SipHash.hash (streams c) →
    Identified SipHash.hash c := by
  intro claimed
  obtain ⟨c,path,distinguished,oneHash,differ⟩ := run_reaches (Cluster.step SipHash.hash) FromZero
    (fun c => Distinguished SipHash.hash c ∧ OneHash c ∧ ((c.servers first).log.take 1).map (requestOf c first) ≠
      ((c.servers second).log.take 1).map (requestOf c second)) sampleCluster twinRequests (by decide +kernel)
  exact differ (claimed 3 sampleConfig (fun _ => Duration.fromMillis 1000) 1 sampleCluster c twinRequests rfl path
    (injOn_of_distinguished distinguished) first second 1 1 oneHash.1)

end OmniPaxosKV.Identity

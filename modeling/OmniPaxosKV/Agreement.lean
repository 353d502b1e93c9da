import OmniPaxosKV.Network
import OmniPaxosKV.Requests
import OmniPaxosKV.SipHash

-- What stands behind a confirm: a quorum of replicas with one history, and when
-- that makes the replicas' logs agree.
namespace OmniPaxosKV.Agreement
open Machine Transitions History Requests Network

variable {n : Nat} {ack : Ack Command}

-- Every ack the proxy took was sent to it by the server it names, and taken once.
structure Receipts (c : Cluster n) : Prop where
  sent : ∀ r ∈ c.proxy.received, ∃ i : Fin n, r.source = i.val ∧
    (c.servers i).toClient[r.place]? = some (1,.ack r.cmd r.hash r.suspect r.lastIdx)
  taken : ∀ r ∈ c.proxy.received, (r.source,r.place) ∈ c.taken
  distinct : c.proxy.received.Pairwise fun r r' => (r.source,r.place) ≠ (r'.source,r'.place)

structure Valid (hasher : List UInt8 → UInt64) (faultTolerance : Nat) (c : Cluster n) : Prop where
  storing : ∀ i, Storing hasher (c.servers i).seqPaxos
  acking : ∀ i, Acking (c.servers i)
  receipts : Receipts c
  papers : ∃ t, Tally.Sound Receipt.hash Receipt.suspect (n-faultTolerance) t ∧
    Votes.Follows (n-faultTolerance) c.proxy t

-- Steps that add no receipt.
theorem Receipts.keep {c next : Cluster n} (receipts : Receipts c) (received : next.proxy.received = c.proxy.received)
    (grows : ∀ i, (c.servers i).toClient <+: (next.servers i).toClient) (taken : c.taken <+: next.taken) :
    Receipts next := by
  refine ⟨?_,?_,by rw [received]; exact receipts.distinct⟩
  · intro r member
    rw [received] at member
    obtain ⟨i,source,message⟩ := receipts.sent r member
    exact ⟨i,source,getElem?_grown (grows i) message⟩
  · intro r member
    rw [received] at member
    exact taken.subset (receipts.taken r member)

theorem proxy_received {p next : Proxy} (internal : Cluster.proxyInternal action = true) (ran : Proxy.Step p action next) :
    next.received = p.received := by
  cases ran with
  | receive => cases internal
  | request => unfold Proxy.takeRequest Proxy.forwardRest; rfl
  | put => exact (Votes.put_parts ..).2.1
  | confirm =>
    unfold Proxy.confirm
    split
    · exact (Votes.confirmRest_parts ..).2.1
    · rfl
  | respond => unfold Proxy.respond; split <;> rfl
  | _ => rfl

theorem moves_grow {c next : Cluster n} (storing : ∀ i, Storing hasher (c.servers i).seqPaxos)
    (ran : Moves hasher c action next) (i : Fin n) : Grows (c.servers i) (next.servers i) := by
  rcases moves_servers ran i with same | ⟨act,moved⟩
  · rw [same]
    exact ⟨List.prefix_refl _,List.prefix_refl _,List.prefix_refl _,List.prefix_refl _⟩
  · exact step_grows (storing i) moved

theorem receipts_moves {c next : Cluster n} (storing : ∀ i, Storing hasher (c.servers i).seqPaxos) (receipts : Receipts c)
    (ran : Moves hasher c action next) : Receipts next := by
  have grows := fun i => (moves_grow storing ran i).toClient
  cases ran with
  | proxy internal moved => exact receipts.keep (proxy_received internal moved) grows (List.prefix_refl _)
  | deliver => exact receipts.keep (by rw [arrive_proxy]; rfl) grows (by cases ‹Cause› <;> exact List.prefix_refl _)
  | exchange | server => exact receipts.keep rfl grows (List.prefix_refl _)
  | take found source message fresh moved =>
    rename_i conn connection place m proxy i
    cases moved with
    | receive there =>
      rename_i source'
      cases there.symm.trans found
      cases m with
      | ack cmd hash suspect lastIdx =>
        have source : source' = i.val := source
        subst source'
        refine ⟨?_,?_,?_⟩
        · intro r member
          rcases List.mem_append.mp member with old | new
          · exact receipts.sent r old
          · cases List.mem_singleton.mp new
            exact ⟨i,rfl,message⟩
        · intro r member
          rcases List.mem_append.mp member with old | new
          · exact List.mem_append_left _ (receipts.taken r old)
          · cases List.mem_singleton.mp new
            exact List.mem_append_right _ (List.mem_singleton_self _)
        · refine List.pairwise_append.mpr ⟨receipts.distinct,List.pairwise_singleton _ _,?_⟩
          intro r member r' new same
          cases List.mem_singleton.mp new
          have again := receipts.taken r member
          rw [same] at again
          exact fresh again
      | _ => exact receipts.keep rfl grows (List.prefix_append _ _)

theorem papers_moves {c next : Cluster n} {faultTolerance : Nat}
    (papers : ∃ t, Tally.Sound Receipt.hash Receipt.suspect (n-faultTolerance) t ∧
      Votes.Follows (n-faultTolerance) c.proxy t) (ran : Moves hasher c action next) :
    ∃ t, Tally.Sound Receipt.hash Receipt.suspect (n-faultTolerance) t ∧
      Votes.Follows (n-faultTolerance) next.proxy t := by
  obtain ⟨t,sound,follows⟩ := papers
  rcases moves_proxy ran with same | ⟨act,moved⟩
  · rw [same]
    exact ⟨t,sound,follows⟩
  · have one := Votes.follows_step follows moved
    split at one
    · exact ⟨t,sound,one⟩
    · obtain ⟨t',put,after⟩ := one
      exact ⟨t',Tally.sound_step sound (Tally.step_sound put),after⟩

theorem valid_moves {c next : Cluster n} (valid : Valid hasher faultTolerance c) (ran : Moves hasher c action next) :
    Valid hasher faultTolerance next := by
  refine ⟨?_,?_,receipts_moves valid.storing valid.receipts ran,papers_moves valid.papers ran⟩
  · exact moves_each (fun s => Storing hasher s.seqPaxos) (fun _ _ _ storing moved => storing_step storing moved) ran valid.storing
  · intro i
    have both := moves_each (fun s => Storing hasher s.seqPaxos ∧ Acking s)
      (fun _ _ _ both moved => ⟨storing_step both.1 moved,acking_step both.1 both.2 moved⟩) ran
      (fun i => ⟨valid.storing i,valid.acking i⟩) i
    exact both.2

theorem valid_new {configs : Fin n → ServerConfig} (created : Cluster.new configs times faultTolerance = some c) :
    Valid hasher faultTolerance c := by
  obtain ⟨proxy,made,rfl⟩ := Option.map_eq_some_iff.mp created
  refine ⟨fun i => storing_new,fun i => acking_new ..,?_,⟨{},Tally.sound_initial,Votes.follows_new made⟩⟩
  cases Proxy.new_eq made
  refine ⟨?_,?_,List.Pairwise.nil⟩
  · intro r member; cases member
  · intro r member; cases member

-- The byte streams of all that the replicas' logs have been.
def streams (c : Cluster n) : Set (List UInt8) :=
  {bytes | ∃ (i : Fin n) (len : Nat), bytes = ((c.servers i).log.take len).flatMap Command.hash}

-- The replica made this ack with this hash, its log being these commands then.
def AckedAt (s : Server) (hash : UInt64) (keys : List (CommandId × KVCommand)) (ack : Ack Command) : Prop :=
  ∃ snapshot, (ack,snapshot) ∈ s.seqPaxos.history.acked ∧ ack.hash = hash ∧ snapshot.map Command.key = keys

-- A quorum of replicas had the history that ends in the confirmed command, and
-- one of them had executed it.
def QuorumBehind (c : Cluster n) (quorum : Nat) (r : Receipt) : Prop :=
  ∃ (voters : Finset (Fin n)) (keys : List (CommandId × KVCommand)), quorum ≤ voters.card ∧
    keys.length = r.lastIdx ∧ keys.getLast? = some r.cmd.key ∧
    (∀ i ∈ voters, ∃ ack, AckedAt (c.servers i) r.hash keys ack) ∧
    ∃ i ∈ voters, ∃ ack, AckedAt (c.servers i) r.hash keys ack ∧ ack.speculation.isSome = true

-- All about one recorded ack.
theorem acked_parts {s : SequencePaxos Command} (storing : Storing hasher s) (member : (ack,snapshot) ∈ s.history.acked) :
    snapshot = s.log.take ack.acceptedIdx ∧ snapshot.length = ack.acceptedIdx ∧
    ack.hash = hasher (snapshot.flatMap Command.hash) ∧ snapshot.getLast? = some ack.req := by
  obtain ⟨k,found⟩ := List.mem_iff_getElem?.mp member
  obtain ⟨taken,idx,hash,entry⟩ := storing.acked k ack snapshot found
  have bound := (List.getElem?_eq_some_iff.mp entry).1
  have length : snapshot.length = k+1 := by
    rw [taken,List.length_take,Nat.min_eq_left bound]
  refine ⟨idx ▸ taken,length.trans idx.symm,hash,?_⟩
  rw [List.getLast?_eq_getElem?,length,Nat.add_sub_cancel,taken,List.getElem?_take_of_lt (Nat.lt_succ_self k)]
  exact entry

theorem acked_keys {c : Cluster n} (storing : ∀ i, Storing hasher (c.servers i).seqPaxos)
    (injective : Set.InjOn hasher (streams c)) (one : (ack,snapshot) ∈ (c.servers i).seqPaxos.history.acked)
    (two : (ack',snapshot') ∈ (c.servers j).seqPaxos.history.acked) (same : ack.hash = ack'.hash) :
    snapshot.map Command.key = snapshot'.map Command.key := by
  obtain ⟨taken,_,hash,_⟩ := acked_parts (storing i) one
  obtain ⟨taken',_,hash',_⟩ := acked_parts (storing j) two
  apply stream_injective
  refine injective ⟨i,ack.acceptedIdx,by rw [taken]⟩ ⟨j,ack'.acceptedIdx,by rw [taken']⟩ ?_
  rw [←hash,←hash']
  exact same

-- The recorded ack behind a receipt.
theorem receipt_acked {c : Cluster n} (valid : Valid hasher faultTolerance c) (member : r ∈ c.proxy.received) :
    ∃ (i : Fin n) (ack : Ack Command) (snapshot : List Command), r.source = i.val ∧
      (c.servers i).toClient[r.place]? = some (1,.ack r.cmd r.hash r.suspect r.lastIdx) ∧
      (ack,snapshot) ∈ (c.servers i).seqPaxos.history.acked ∧ ack.req = r.cmd ∧ ack.hash = r.hash ∧
      ack.speculation = r.suspect ∧ ack.acceptedIdx = r.lastIdx := by
  obtain ⟨i,source,message⟩ := valid.receipts.sent r member
  obtain ⟨ack,present,req,hash,speculation,idx⟩ :=
    (valid.acking i).sent _ _ _ _ _ (List.mem_of_getElem? message)
  obtain ⟨⟨_,snapshot⟩,recorded,rfl⟩ := List.mem_map.mp present
  exact ⟨i,_,snapshot,source,message,recorded,req,hash,speculation,idx⟩

theorem countP_two {p : α → Bool} {l : List α} {i j : Nat} (distinct : i ≠ j) (one : l[i]? = some a) (two : l[j]? = some b)
    (holds : p a = true) (holds' : p b = true) : 2 ≤ l.countP p := by
  induction l generalizing i j with
  | nil => simp at one
  | cons x rest ih =>
    have single : ∀ {k : Nat} {y}, rest[k]? = some y → p y = true → 1 ≤ rest.countP p :=
      fun found meets => List.countP_pos_iff.mpr ⟨_,List.mem_of_getElem? found,meets⟩
    rw [List.countP_cons]
    cases i with
    | zero =>
      cases j with
      | zero => exact absurd rfl distinct
      | succ j =>
        cases Option.some.inj one
        rw [if_pos holds]
        exact Nat.succ_le_succ (single two holds')
    | succ i =>
      cases j with
      | zero =>
        cases Option.some.inj two
        rw [if_pos holds']
        exact Nat.succ_le_succ (single one holds)
      | succ j => exact Nat.le_trans (ih (fun same => distinct (congrArg Nat.succ same)) one two) (Nat.le_add_right ..)

-- Two acks of one hash that the proxy received are from two replicas.
theorem sources_distinct {c : Cluster n} (valid : Valid hasher faultTolerance c)
    (injective : Set.InjOn hasher (streams c)) {k k' : Nat} (found : c.proxy.received[k]? = some r)
    (found' : c.proxy.received[k']? = some r') (hash : r.hash = r'.hash) (source : r.source = r'.source) : k = k' := by
  by_contra distinct
  obtain ⟨i,ack,snapshot,from_,message,recorded,_,sameHash,_,idx⟩ := receipt_acked valid (List.mem_of_getElem? found)
  obtain ⟨i',ack',snapshot',from',message',recorded',_,sameHash',_,idx'⟩ :=
    receipt_acked valid (List.mem_of_getElem? found')
  have same : i = i' := Fin.ext (from_.symm.trans (source.trans from'))
  subst i'
  -- Equal histories have equal lengths, so both acks carry one index.
  have keys := acked_keys valid.storing injective recorded recorded' (sameHash.trans (hash.trans sameHash'.symm))
  have lengths := congrArg List.length keys
  rw [List.length_map,List.length_map,(acked_parts (valid.storing i) recorded).2.1,
    (acked_parts (valid.storing i) recorded').2.1,idx,idx'] at lengths
  have places : r.place ≠ r'.place := by
    intro place
    have apart := List.pairwise_iff_getElem.mp valid.receipts.distinct
    obtain ⟨bound,rfl⟩ := List.getElem?_eq_some_iff.mp found
    obtain ⟨bound',rfl⟩ := List.getElem?_eq_some_iff.mp found'
    rcases Nat.lt_or_gt_of_ne distinct with less | more
    · exact apart k k' bound bound' less (Prod.ext source place)
    · exact apart k' k bound' bound more (Prod.ext source.symm place.symm)
  have twice := countP_two (p := sends r.lastIdx) places message message' (by simp [sends]) (by simp [sends,lengths])
  have once := (valid.acking i).once r.lastIdx
  unfold underWay at once
  omega

theorem quorum_behind {c : Cluster n} (valid : Valid hasher faultTolerance c) (injective : Set.InjOn hasher (streams c))
    (broadcast : k ∈ c.proxy.broadcasts) (found : c.proxy.received[k]? = some r) :
    QuorumBehind c (n-faultTolerance) r := by
  obtain ⟨t,sound,follows⟩ := valid.papers
  obtain ⟨paper,there,entry,complete,papers,counted,enough,marked⟩ := sound.won k (follows.winners ▸ broadcast)
  rw [follows.received] at there
  cases there.symm.trans found
  obtain ⟨own,ack,snapshot,_,_,recorded,req,hash,_,idx⟩ := receipt_acked valid (List.mem_of_getElem? found)
  obtain ⟨_,length,_,last⟩ := acked_parts (valid.storing own) recorded
  -- Each counted paper is an ack that some replica made with the same history.
  have behind : ∀ number ∈ papers, ∃ i : Fin n, ∃ r', c.proxy.received[number]? = some r' ∧ r'.hash = r.hash ∧
      r'.source = i.val ∧ ∃ ack, AckedAt (c.servers i) r.hash (snapshot.map Command.key) ack ∧
        ack.speculation = r'.suspect := by
    intro number member
    obtain ⟨⟨r',found',same⟩,_⟩ := counted number member
    rw [follows.received] at found'
    obtain ⟨i,ack',snapshot',source,_,recorded',_,hash',speculation,_⟩ :=
      receipt_acked valid (List.mem_of_getElem? found')
    refine ⟨i,r',found',same,source,ack',⟨snapshot',recorded',hash'.trans same,?_⟩,speculation⟩
    exact acked_keys valid.storing injective recorded' recorded (hash'.trans (same.trans hash.symm))
  choose voter behind using behind
  have distinct : Function.Injective fun x : {x // x ∈ papers} => voter x.1 x.2 := by
    intro x y same
    obtain ⟨r',found',hash',source',_⟩ := behind x.1 x.2
    obtain ⟨r'',found'',hash'',source'',_⟩ := behind y.1 y.2
    have equal : r'.source = r''.source := source'.trans ((congrArg Fin.val same).trans source''.symm)
    exact Subtype.ext (sources_distinct valid injective found' found'' (hash'.trans hash''.symm) equal)
  refine ⟨papers.attach.image fun x => voter x.1 x.2,snapshot.map Command.key,?_,?_,?_,?_,?_⟩
  · rw [Finset.card_image_of_injective _ distinct,Finset.card_attach]
    exact Nat.le_trans complete.1 enough
  · rw [List.length_map,length]
    exact idx
  · rw [List.getLast?_map,last,←req]
    rfl
  · intro i member
    obtain ⟨x,_,rfl⟩ := Finset.mem_image.mp member
    obtain ⟨_,_,_,_,ack',acked,_⟩ := behind x.1 x.2
    exact ⟨ack',acked⟩
  · obtain ⟨number,member,r',found',answered⟩ := marked complete.2
    rw [follows.received] at found'
    obtain ⟨r'',found'',_,_,ack',acked,speculation⟩ := behind number member
    cases found'.symm.trans found''
    exact ⟨voter number member,Finset.mem_image.mpr ⟨⟨number,member⟩,Finset.mem_attach _ _,rfl⟩,ack',acked,
      speculation ▸ answered⟩

theorem valid_runs {configs : Fin n → ServerConfig} (created : Cluster.new configs times faultTolerance = some initial)
    (path : Runs (Cluster.step hasher) allowed initial actions c) : Valid hasher faultTolerance c :=
  path.invariant (Valid hasher faultTolerance) (fun _ _ _ valid _ ran => valid_moves valid (moves_sound ran))
    (valid_new created)

-- The digest tells the streams of a given cluster apart.
def Distinguished (hasher : List UInt8 → UInt64) (c : Cluster n) : Prop :=
  ∀ i j : Fin n, ∀ len < (c.servers i).log.length+1, ∀ len' < (c.servers j).log.length+1,
    hasher (((c.servers i).log.take len).flatMap Command.hash) = hasher (((c.servers j).log.take len').flatMap Command.hash) →
    ((c.servers i).log.take len).flatMap Command.hash = ((c.servers j).log.take len').flatMap Command.hash

instance (hasher : List UInt8 → UInt64) (c : Cluster n) : Decidable (Distinguished hasher c) := by
  unfold Distinguished; infer_instance

theorem injOn_of_distinguished {c : Cluster n} (distinguished : Distinguished hasher c) :
    Set.InjOn hasher (streams c) := by
  have short : ∀ (l : List Command) len, ∃ len' < l.length+1, l.take len = l.take len' := by
    intro l len
    by_cases inside : len ≤ l.length
    · exact ⟨len,Nat.lt_succ_of_le inside,rfl⟩
    · refine ⟨l.length,Nat.lt_succ_self _,?_⟩
      rw [List.take_of_length_le (Nat.le_of_not_le inside),List.take_length]
  intro _ held _ held' same
  obtain ⟨i,len,rfl⟩ := held
  obtain ⟨j,len',rfl⟩ := held'
  obtain ⟨len,bound,equal⟩ := short (c.servers i).log len
  obtain ⟨len',bound',equal'⟩ := short (c.servers j).log len'
  rw [equal,equal'] at same ⊢
  exact distinguished i j len bound len' bound' same

-- Three replicas numbered from one, the second of which takes the lead.
def sampleConfig (i : Fin 3) : ServerConfig := {serverId:=i.val+1,nodes:=[1,2,3],clockSyncIntervalMs:=1000}

def sampleCluster : Cluster 3 where
  servers i := .new (sampleConfig i) (Duration.fromMillis 1000)
  proxy := {servers:=3,db:={quorum:=2}}

def first : Fin 3 := 0

def second : Fin 3 := 1

-- From a delivered request to the ack for it: the task at `place` waits for the deadline.
def acknowledge (i : Fin 3) (place : Nat) : List (Cluster.Act 3) :=
  [Cluster.Act.server i (.task place 0),.server i .wait,.server i .wait]++
  List.replicate 21 (Cluster.Act.server i (.clockTick true))++
  [Cluster.Act.server i .wait,.server i (.task place 0),.server i (.task place 0),.server i .send]

def startUp : List (Cluster.Act 3) :=
  [.server 1 .tryBecomeLeader,.proxy (.connect 1),.proxy (.connect 2)]

def ask (conn : Nat) (id : CommandId) (value : String) : Cluster.Act 3 :=
  .proxy (.request conn (.append id (.put "x" value)))

def relay (conn : Nat) (servers : List Nat) : List (Cluster.Act 3) :=
  servers.map fun server => .proxy (.forward conn server true)

-- The acks of the last two replicas decide the first entry.
def countVotes : List (Cluster.Act 3) :=
  [.take 0 0,.take 1 0,.proxy (.get 0),.proxy (.put 0),.proxy (.get 1),.proxy (.put 1),
   .proxy (.confirm 1 0 true),.proxy (.confirm 1 1 true),.proxy (.confirm 1 2 true)]

def oneRequest : List (Cluster.Act 3) :=
  startUp++ask 0 7 "1"::relay 0 [0,1,2]++[Cluster.Act.deliver 0,.deliver 1,.deliver 2]++
  acknowledge 0 0++acknowledge 1 0++acknowledge 2 0++countVotes++
  [Cluster.Act.deliver 3,.deliver 4,.deliver 5,.server 0 (.task 1 0),.server 1 (.task 1 0),.server 2 (.task 1 0)]

-- Two clients' requests reach the first replica in the other order.
def crossedRequests : List (Cluster.Act 3) :=
  startUp++ask 0 7 "1"::ask 1 8 "2"::relay 0 [1,2]++relay 1 [0]++[Cluster.Act.deliver 0,.deliver 1,.deliver 2]++
  relay 0 [0]++relay 1 [1,2]++acknowledge 0 0++acknowledge 1 0++acknowledge 2 0++countVotes++
  [Cluster.Act.deliver 6,.deliver 7,.server 0 (.task 1 0),.server 1 (.task 1 0),.deliver 3,.deliver 4,.deliver 5]

-- The index of a confirm that the replica's log lives up to: the replica has the
-- confirmed history itself.
def Endorsed (hasher : List UInt8 → UInt64) (c : Cluster n) (i : Fin n) (idx : Nat) : Prop :=
  idx = 0 ∨ ∃ k ∈ c.proxy.broadcasts, ∃ r, c.proxy.received[k]? = some r ∧ r.lastIdx = idx ∧
    idx ≤ (c.servers i).log.length ∧ hasher (((c.servers i).log.take idx).flatMap Command.hash) = r.hash

-- What holds in every run, whatever the order in which messages arrive.
structure Known (hasher : List UInt8 → UInt64) (faultTolerance : Nat) (c : Cluster n) : Prop where
  valid : Valid hasher faultTolerance c
  silent : ∀ i, Silent (c.servers i)
  owned : ∀ i, ∃ owner, Owned (c.servers i) owner
  sent : Sent c.proxy

structure Informed (hasher : List UInt8 → UInt64) (faultTolerance : Nat) (c : Cluster n) : Prop
    extends Known hasher faultTolerance c where
  decided : ∀ i, Endorsed hasher c i (c.servers i).decidedIdx
  pending : ∀ i idx, Task.setDecidedIdx idx ∈ (c.servers i).seqPaxos.tasks → Endorsed hasher c i idx

-- A confirm reaches only replicas that have the history it confirms.
def Matching (hasher : List UInt8 → UInt64) (c : Cluster n) : Cluster.Act n → Prop
  | .deliver place => match c.proxy.toServer[place]? with
    | some (target,.ack _ lastIdx,.ack k) => ∀ i : Fin n, i.val = target → ∀ r ∈ c.proxy.received[k]?,
        lastIdx ≤ (c.servers i).log.length ∧
        hasher (((c.servers i).log.take lastIdx).flatMap Command.hash) = r.hash
    | _ => True
  | _ => True

instance (hasher : List UInt8 → UInt64) (c : Cluster n) (action : Cluster.Act n) :
    Decidable (Matching hasher c action) := by
  unfold Matching; split <;> (try split) <;> infer_instance

-- A leader takes requests only while no other replica has.
def LedAlone (c : Cluster n) : Cluster.Act n → Prop
  | .deliver place => match c.proxy.toServer[place]? with
    | some (target,.append _ _,_) => ∀ i : Fin n, i.val = target → (c.servers i).role = .leader →
        ∀ j, j ≠ i → ¬ HasLed (c.servers j)
    | _ => True
  | _ => True

instance (c : Cluster n) (action : Cluster.Act n) : Decidable (LedAlone c action) := by
  unfold LedAlone; split <;> (try split) <;> infer_instance

theorem Endorsed.grow {c next : Cluster n} (endorsed : Endorsed hasher c i idx)
    (log : (c.servers i).log <+: (next.servers i).log) (proxy : ProxyGrows c.proxy next.proxy) :
    Endorsed hasher next i idx := by
  rcases endorsed with zero | ⟨k,broadcast,r,found,last,inside,hash⟩
  · exact .inl zero
  · refine .inr ⟨k,proxy.broadcasts.subset broadcast,r,getElem?_grown proxy.received found,last,
      Nat.le_trans inside log.length_le,?_⟩
    obtain ⟨rest,same⟩ := log
    rw [←same,List.take_append_of_le_length inside]
    exact hash

theorem moves_proxyGrows {c next : Cluster n} (ran : Moves hasher c action next) : ProxyGrows c.proxy next.proxy := by
  rcases moves_proxy ran with same | ⟨act,moved⟩
  · rw [same]
    exact ⟨List.prefix_refl _,List.prefix_refl _,List.prefix_refl _⟩
  · exact proxy_grows moved

-- A confirm that reaches a server was broadcast for an ack, and the server has its history.
theorem confirms_endorsed {c : Cluster n} (informed : Informed hasher faultTolerance c)
    (matching : Matching hasher c (.deliver place)) (message : c.proxy.toServer[place]? = some (i.val,m,cause))
    (carried : (Server.Act.client 1 m).confirms = some (command,idx)) : Endorsed hasher c i idx := by
  cases m with
  | append commandId kv => cases carried
  | ack cmd lastIdx =>
    cases carried
    have caused := informed.sent.caused _ (List.mem_of_getElem? message)
    cases cause with
    | request number =>
      obtain ⟨conn,asked⟩ := caused
      have append := informed.sent.appends _ (List.mem_of_getElem? asked)
      cases append
    | ack k =>
      obtain ⟨broadcast,r,found,same⟩ := caused
      cases same
      simp only [Matching,message] at matching
      obtain ⟨inside,hash⟩ := matching i rfl r found
      exact .inr ⟨k,broadcast,r,found,rfl,inside,hash⟩

-- Confirms come from the proxy alone.
theorem prompted_confirms {c : Cluster n} (informed : Informed hasher faultTolerance c)
    (matching : Matching hasher c action) (prompted : Prompted c action i act)
    (carried : act.confirms = some (command,idx)) : Endorsed hasher c i idx := by
  cases prompted with
  | deliver message => exact confirms_endorsed informed matching message carried
  | exchange message =>
    have none := (informed.silent _).toCluster _ (List.mem_of_getElem? message)
    exact nomatch none.symm.trans carried
  | server internal => cases act <;> first | cases carried | cases internal

theorem sent_moves {c next : Cluster n} (sent : Sent c.proxy) (valid : Valid hasher faultTolerance c)
    (ran : Moves hasher c action next) : Sent next.proxy := by
  obtain ⟨t,_,follows⟩ := valid.papers
  rcases moves_asks ran with same | ⟨act,asks,moved⟩
  · rw [same]
    exact sent
  · exact sent_step sent follows asks moved

theorem known_moves {c next : Cluster n} (known : Known hasher faultTolerance c)
    (ran : Moves hasher c action next) : Known hasher faultTolerance next := by
  have storing := known.valid.storing
  refine ⟨valid_moves known.valid ran,?_,?_,sent_moves known.sent known.valid ran⟩
  · intro i
    rcases moves_servers ran i with same | ⟨act,moved⟩
    · rw [same]; exact known.silent i
    · exact silent_step (storing i) (known.silent i) moved
  · intro i
    obtain ⟨owner,owned⟩ := known.owned i
    rcases moves_servers ran i with same | ⟨act,moved⟩
    · rw [same]; exact ⟨owner,owned⟩
    · exact owned_step (storing i) owned moved

theorem known_new {configs : Fin n → ServerConfig} (created : Cluster.new configs times faultTolerance = some c) :
    Known hasher faultTolerance c := by
  have valid : Valid hasher faultTolerance c := valid_new created
  cases Cluster.new_eq created
  refine ⟨valid,fun i => silent_new ..,fun i => ⟨fun _ => 0,owned_new ..⟩,?_,?_,?_⟩
  · intro entry member; cases member
  · intro i c number m remaining present; simp at present
  · intro request member; cases member

theorem informed_moves {c next : Cluster n} (informed : Informed hasher faultTolerance c)
    (matching : Matching hasher c action) (ran : Moves hasher c action next) : Informed hasher faultTolerance next := by
  have storing := informed.valid.storing
  have grow : ∀ {i idx}, Endorsed hasher c i idx → Endorsed hasher next i idx :=
    fun endorsed => endorsed.grow (moves_grow storing ran _).log (moves_proxyGrows ran)
  refine ⟨known_moves informed.toKnown ran,?_,?_⟩
  · intro i
    rcases moves_servers ran i with same | ⟨act,moved⟩
    · rw [same]; exact grow (informed.decided i)
    · rcases (step_decided (storing i) moved).1 with kept | set
      · rw [kept]; exact grow (informed.decided i)
      · exact grow (informed.pending i _ set)
  · intro i idx member
    rcases moves_prompted ran i with same | ⟨act,prompted,moved,_⟩
    · rw [same] at member; exact grow (informed.pending i idx member)
    · rcases (step_decided (storing i) moved).2 idx member with old | ⟨command,carried⟩
      · exact grow (informed.pending i idx old)
      · exact grow (prompted_confirms informed matching prompted carried)

theorem informed_new {configs : Fin n → ServerConfig} (created : Cluster.new configs times faultTolerance = some c) :
    Informed hasher faultTolerance c := by
  have known : Known hasher faultTolerance c := known_new created
  cases Cluster.new_eq created
  refine ⟨known,fun i => .inl rfl,?_⟩
  intro i idx member
  cases member

-- No two replicas have led.
def Alone (c : Cluster n) : Prop := ∀ i j, HasLed (c.servers i) → HasLed (c.servers j) → i = j

-- A replica that begins to lead is the only one that has led.
theorem prompted_alone {c : Cluster n} (ledAlone : LedAlone c action)
    (prompted : Prompted c action i (.client sender (.append commandId kv))) (leads : (c.servers i).role = .leader)
    (distinct : j ≠ i) : ¬ HasLed (c.servers j) := by
  cases prompted with
  | deliver message =>
    simp only [LedAlone,message] at ledAlone
    exact ledAlone i rfl leads j distinct
  | server internal => cases internal

theorem alone_moves {c next : Cluster n} (alone : Alone c) (ledAlone : LedAlone c action)
    (ran : Moves hasher c action next) : Alone next := by
  -- Either nobody began to lead in this step, or the one that did is the only one.
  have started : ∀ i, HasLed (next.servers i) → HasLed (c.servers i) ∨ ∀ j, j ≠ i → ¬ HasLed (next.servers j) := by
    intro i led
    rcases moves_prompted ran i with same | ⟨act,prompted,moved,others⟩
    · exact .inl (same ▸ led)
    · rcases step_hasLed moved led with old | ⟨leads,sender,commandId,kv,equal⟩
      · exact .inl old
      · subst equal
        right
        intro j distinct
        rw [others j distinct]
        exact prompted_alone ledAlone prompted leads distinct
  intro i j led led'
  rcases started i led with old | only
  · rcases started j led' with old' | only'
    · exact alone i j old old'
    · by_contra distinct
      exact only' i distinct led
  · by_contra distinct
    exact only j (Ne.symm distinct) led'

-- The log of a replica that acked a history begins with it.
theorem ackedAt_log {s : Server} {hash : UInt64} (storing : Storing hasher s.seqPaxos) (acked : AckedAt s hash keys ack) :
    (s.log.take keys.length).map Command.key = keys := by
  obtain ⟨snapshot,recorded,_,rfl⟩ := acked
  obtain ⟨taken,length,_,_⟩ := acked_parts storing recorded
  rw [List.length_map,length,←taken]

theorem ackedAt_led {s : Server} {hash : UInt64} (owned : Owned s owner) (acked : AckedAt s hash keys ack)
    (answered : ack.speculation.isSome = true) : HasLed s := by
  obtain ⟨snapshot,recorded,_,_⟩ := acked
  obtain ⟨_,p,found,same⟩ := owned.acked ack (List.mem_map.mpr ⟨_,recorded,rfl⟩)
  exact ⟨p,List.mem_of_getElem? found,same ▸ answered⟩

-- A quorum, with the leader in it, begins with what the replica decided.
theorem endorsed_quorum {c : Cluster n} (informed : Informed hasher faultTolerance c)
    (injective : Set.InjOn hasher (streams c)) (endorsed : Endorsed hasher c i idx) (positive : idx ≠ 0) :
    idx ≤ (c.servers i).log.length ∧ ∃ voters : Finset (Fin n), n-faultTolerance ≤ voters.card ∧
      (∃ v ∈ voters, HasLed (c.servers v)) ∧ ∀ v ∈ voters,
        ((c.servers v).log.take idx).map Command.key = ((c.servers i).log.take idx).map Command.key := by
  have storing := informed.valid.storing
  obtain ⟨k,broadcast,r,found,rfl,inside,hash⟩ := endorsed.resolve_left positive
  obtain ⟨voters,keys,enough,length,_,acked,leader,member,ack,ackedThere,answered⟩ :=
    quorum_behind informed.valid injective broadcast found
  have own : ((c.servers i).log.take r.lastIdx).map Command.key = keys := by
    obtain ⟨snapshot,recorded,sameHash,rfl⟩ := ackedThere
    obtain ⟨taken,_,snapshotHash,_⟩ := acked_parts (storing leader) recorded
    apply stream_injective
    refine injective ⟨i,r.lastIdx,rfl⟩ ⟨leader,ack.acceptedIdx,by rw [taken]⟩ ?_
    rw [hash,←snapshotHash]
    exact sameHash.symm
  refine ⟨inside,voters,enough,⟨leader,member,?_⟩,?_⟩
  · obtain ⟨owner,owned⟩ := informed.owned leader
    exact ackedAt_led owned ackedThere answered
  · intro v present
    obtain ⟨ack',acked'⟩ := acked v present
    rw [own,←length]
    exact ackedAt_log (storing v) acked'

-- Below both decided indices, two replicas hold the same commands.
def Agree (c : Cluster n) : Prop :=
  ∀ i j idx, idx < (c.servers i).decidedIdx → idx < (c.servers j).decidedIdx →
    ∃ a b, (c.servers i).log[idx]? = some a ∧ (c.servers j).log[idx]? = some b ∧ a.key = b.key

theorem getElem_keys {l m : List Command} {bound idx : Nat} (same : (l.take bound).map Command.key = (m.take bound).map Command.key)
    (below : idx < bound) : l[idx]?.map Command.key = m[idx]?.map Command.key := by
  have entry := congrArg (·[idx]?) same
  simpa only [List.getElem?_map,List.getElem?_take_of_lt below] using entry

theorem agree_of_informed {c : Cluster n} (informed : Informed hasher faultTolerance c)
    (injective : Set.InjOn hasher (streams c)) (majority : 2*faultTolerance < n ∨ Alone c) : Agree c := by
  intro i j idx below below'
  obtain ⟨inside,voters,enough,⟨leader,member,led⟩,same⟩ :=
    endorsed_quorum informed injective (informed.decided i) (Nat.ne_zero_of_lt below)
  obtain ⟨inside',voters',enough',⟨leader',member',led'⟩,same'⟩ :=
    endorsed_quorum informed injective (informed.decided j) (Nat.ne_zero_of_lt below')
  -- One replica voted for both histories, and its log is one log.
  have common : ∃ v, v ∈ voters ∧ v ∈ voters' := by
    rcases majority with more | alone
    · have crowded : (Finset.univ : Finset (Fin n)).card < voters.card+voters'.card := by
        rw [Finset.card_univ,Fintype.card_fin]
        omega
      obtain ⟨v,both⟩ := Finset.inter_nonempty_of_card_lt_card_add_card (Finset.subset_univ voters)
        (Finset.subset_univ voters') crowded
      exact ⟨v,Finset.mem_inter.mp both⟩
    · cases alone leader leader' led led'
      exact ⟨leader,member,member'⟩
  obtain ⟨v,here,there⟩ := common
  have keys : (c.servers i).log[idx]?.map Command.key = (c.servers j).log[idx]?.map Command.key := by
    rw [←getElem_keys (same v here) below,←getElem_keys (same' v there) below']
  have found := List.getElem?_eq_getElem (Nat.lt_of_lt_of_le below inside)
  have found' := List.getElem?_eq_getElem (Nat.lt_of_lt_of_le below' inside')
  refine ⟨_,_,found,found',?_⟩
  rw [found,found'] at keys
  exact Option.some.inj keys

theorem logs_agree (hasher : List UInt8 → UInt64) (configs : Fin n → ServerConfig) (times : Fin n → SystemTime)
    (faultTolerance : Nat) (initial c : Cluster n) (actions : List (Cluster.Act n))
    (created : Cluster.new configs times faultTolerance = some initial)
    (path : Runs (Cluster.step hasher)
      (fun c action => Matching hasher c action ∧ (2*faultTolerance < n ∨ LedAlone c action)) initial actions c)
    (injective : Set.InjOn hasher (streams c)) : Agree c := by
  have start : Alone initial := by
    cases Cluster.new_eq created
    intro i j held
    obtain ⟨p,member,_⟩ := held
    cases member
  have both := path.invariant (fun c => Informed hasher faultTolerance c ∧ (2*faultTolerance < n ∨ Alone c)) ?_
    ⟨informed_new created,.inr start⟩
  · exact agree_of_informed both.1 injective both.2
  · intro c action next known meets ran
    refine ⟨informed_moves known.1 meets.1 (moves_sound ran),?_⟩
    rcases known.2 with more | alone
    · exact .inl more
    · rcases meets.2 with more | ledAlone
      · exact .inl more
      · exact .inr (alone_moves alone ledAlone (moves_sound ran))

-- Every replica has the confirmed entry where the confirm says it is.
theorem logs_agree_once : ∃ c : Cluster 3, Runs (Cluster.step SipHash.hash)
    (fun c action => Matching SipHash.hash c action ∧ (2*1 < 3 ∨ LedAlone c action)) sampleCluster oneRequest c ∧
    (∀ i, (c.servers i).decidedIdx = 1) ∧ Agree c := by
  obtain ⟨c,path,distinguished,decided⟩ := run_reaches (Cluster.step SipHash.hash)
    (fun c action => Matching SipHash.hash c action ∧ (2*1 < 3 ∨ LedAlone c action))
    (fun c => Distinguished SipHash.hash c ∧ ∀ i, (c.servers i).decidedIdx = 1) sampleCluster oneRequest (by decide +kernel)
  exact ⟨c,path,decided,logs_agree SipHash.hash sampleConfig (fun _ => Duration.fromMillis 1000) 1
    sampleCluster c oneRequest rfl path (injOn_of_distinguished distinguished)⟩

theorem logs_disagree : ¬ ∀ (n : Nat) (configs : Fin n → ServerConfig) (times : Fin n → SystemTime) (faultTolerance : Nat)
    (initial c : Cluster n) (actions : List (Cluster.Act n)), Cluster.new configs times faultTolerance = some initial →
    Reaches (Cluster.step SipHash.hash) initial actions c → Set.InjOn SipHash.hash (streams c) → Agree c := by
  intro claimed
  obtain ⟨c,path,distinguished,below,below',differ⟩ := run_reaches (Cluster.step SipHash.hash) (fun _ _ => True)
    (fun c => Distinguished SipHash.hash c ∧ 0 < (c.servers 0).decidedIdx ∧ 0 < (c.servers 1).decidedIdx ∧
      (c.servers 0).log[0]?.map Command.key ≠ (c.servers 1).log[0]?.map Command.key)
    sampleCluster crossedRequests (by decide +kernel)
  obtain ⟨a,b,found,found',same⟩ := claimed 3 sampleConfig (fun _ => Duration.fromMillis 1000) 1 sampleCluster c
    crossedRequests rfl path (injOn_of_distinguished distinguished) 0 1 0 below below'
  rw [found,found'] at differ
  exact differ (congrArg some same)

end OmniPaxosKV.Agreement

import OmniPaxosKV.Agreement

-- The numbers by which the leader announces deadlines and a follower looks them
-- up are each server's own count of the requests that reached it.
namespace OmniPaxosKV.Numbering
open Machine Transitions History Requests Network Agreement

variable {n : Nat}

theorem step_append {s next : Server} (storing : Storing hasher s.seqPaxos)
    (ran : Step hasher s (.client sender (.append commandId kv)) next) :
    ∃ p, next.proposed = s.proposed++[p] ∧ p.command.key = (commandId,kv) := by
  cases ran with
  | speculate _ _ made => exact ⟨_,rfl,by rw [←made]; rfl⟩
  | propose _ _ made => exact ⟨_,rfl,by rw [←made]; rfl⟩
  | refuse stopped =>
    rw [storing.running] at stopped
    cases stopped
  | confirm _ carried => cases carried
  | signal _ quiet => cases quiet
  | rest _ quiet => cases quiet
  | elect _ quiet => cases quiet

theorem step_proposed {s next : Server} (ran : Step hasher s action next)
    (other : ∀ sender commandId kv, action ≠ .client sender (.append commandId kv)) : next.proposed = s.proposed := by
  cases ran with
  | speculate => exact absurd rfl (other _ _ _)
  | propose => exact absurd rfl (other _ _ _)
  | _ => rfl

-- The requests that reached a server, in order, are its proposals.
structure Numbered (c : Cluster n) : Prop where
  count : ∀ i, (c.servers i).proposed.length = (c.arrivals i).length
  asked : ∀ i (k : Nat) p, (c.servers i).proposed[k]? = some p → ∃ number conn, (c.arrivals i)[k]? = some number ∧
    c.proxy.requests[number]? = some (conn,.append p.command.id p.command.kvCmd)

theorem Numbered.keep {c next : Cluster n} (numbered : Numbered c)
    (proposed : ∀ i, (next.servers i).proposed = (c.servers i).proposed) (arrivals : next.arrivals = c.arrivals)
    (requests : c.proxy.requests <+: next.proxy.requests) : Numbered next := by
  refine ⟨?_,?_⟩
  · intro i
    rw [proposed,arrivals]
    exact numbered.count i
  · intro i k p found
    rw [proposed] at found
    obtain ⟨number,conn,arrived,asked⟩ := numbered.asked i k p found
    exact ⟨number,conn,by rw [arrivals]; exact arrived,getElem?_grown requests asked⟩

theorem update_proposed {c : Cluster n} {j : Fin n} {s : Server} (same : s.proposed = (c.servers j).proposed) (i : Fin n) :
    (Function.update c.servers j s i).proposed = (c.servers i).proposed := by
  by_cases equal : i = j
  · subst i
    rw [Function.update_self]
    exact same
  · rw [Function.update_of_ne equal]

-- A request reaches one server, which gives it the next number.
theorem numbered_request {c next : Cluster n} (numbered : Numbered c) (i : Fin n) (p : Proposal) {number : Nat}
    (proposed : (next.servers i).proposed = (c.servers i).proposed++[p]) (arrived : next.arrivals i = c.arrivals i++[number])
    (others : ∀ j, j ≠ i → (next.servers j).proposed = (c.servers j).proposed ∧ next.arrivals j = c.arrivals j)
    (requests : next.proxy.requests = c.proxy.requests)
    (request : c.proxy.requests[number]? = some (conn,.append p.command.id p.command.kvCmd)) : Numbered next := by
  refine ⟨?_,?_⟩
  · intro j
    by_cases same : j = i
    · subst j
      rw [proposed,arrived,List.length_append,List.length_append,numbered.count]
      rfl
    · rw [(others j same).1,(others j same).2]
      exact numbered.count j
  · intro j k q found
    rw [requests]
    by_cases same : j = i
    · subst j
      rw [proposed] at found
      rw [arrived]
      rcases getElem?_concat_cases found with old | ⟨last,rfl⟩
      · obtain ⟨number',conn',there,asked⟩ := numbered.asked i k q old
        exact ⟨number',conn',getElem?_grown (List.prefix_append ..) there,asked⟩
      · rw [numbered.count] at last
        exact ⟨number,conn,by rw [last]; exact List.getElem?_concat_length,request⟩
    · rw [(others j same).1] at found
      rw [(others j same).2]
      exact numbered.asked j k q found

theorem numbered_deliver {c : Cluster n} {place : Nat} (numbered : Numbered c) (storing : Storing hasher (c.servers i).seqPaxos)
    (sent : Sent c.proxy) (message : c.proxy.toServer[place]? = some (i.val,m,cause))
    (ran : Step hasher (c.servers i) (.client 1 m) s) :
    Numbered {(c.updateServer i s).arrive i cause with delivered:=delivered} := by
  have caused := sent.caused _ (List.mem_of_getElem? message)
  cases cause with
  | ack k =>
    obtain ⟨_,r,_,same⟩ := caused
    cases same
    exact numbered.keep (update_proposed (step_proposed ran nofun)) rfl (List.prefix_refl _)
  | request number =>
    obtain ⟨conn,asked⟩ := caused
    cases m with
    | ack cmd lastIdx =>
      have append := sent.appends _ (List.mem_of_getElem? asked)
      cases append
    | append commandId kv =>
      obtain ⟨p,proposed,key⟩ := step_append storing ran
      cases key
      refine numbered_request numbered i p ?_ ?_ ?_ rfl asked
      · exact (congrArg Server.proposed (Function.update_self ..)).trans proposed
      · exact Function.update_self ..
      · intro j distinct
        exact ⟨congrArg Server.proposed (Function.update_of_ne distinct ..),Function.update_of_ne distinct ..⟩

theorem numbered_moves {c next : Cluster n} (known : Known hasher faultTolerance c) (numbered : Numbered c)
    (ran : Moves hasher c action next) : Numbered next := by
  cases ran with
  | proxy _ moved => exact numbered.keep (fun _ => rfl) rfl (proxy_grows moved).requests
  | take _ _ _ _ moved => exact numbered.keep (fun _ => rfl) rfl (proxy_grows moved).requests
  | deliver message _ moved => exact numbered_deliver numbered (known.valid.storing _) known.sent message moved
  | exchange _ moved => exact numbered.keep (update_proposed (step_proposed moved nofun)) rfl (List.prefix_refl _)
  | server internal moved =>
    refine numbered.keep (update_proposed (step_proposed moved ?_)) rfl (List.prefix_refl _)
    intro sender commandId kv equal
    subst equal
    cases internal

theorem numbered_new {configs : Fin n → ServerConfig} (created : Cluster.new configs times faultTolerance = some c) :
    Numbered c := by
  cases Cluster.new_eq created
  refine ⟨fun i => rfl,?_⟩
  intro i k p found
  simp [Server.new] at found

def delivered (c : Cluster n) : Cluster.Act n → Option (Nat × ClientMessage × Cause)
  | .deliver place => c.proxy.toServer[place]?
  | _ => none

def asked : Cause → Option Nat
  | .request number => some number
  | .ack _ => none

-- A request reaches a server only in the place it has, or can still get, at every other one.
def SameOrder (c : Cluster n) (action : Cluster.Act n) : Prop :=
  ∀ message ∈ delivered c action, ∀ number ∈ asked message.2.2, ∀ i j : Fin n, i.val = message.1 →
    ∀ other ∈ (c.arrivals j)[(c.arrivals i).length]?, other = number

instance (c : Cluster n) (action : Cluster.Act n) : Decidable (SameOrder c action) :=
  inferInstanceAs (Decidable (∀ message ∈ delivered c action, _))

-- Two servers given a request in the same place were given the same request.
def Aligned (c : Cluster n) : Prop :=
  ∀ i j (k : Nat) a b, (c.arrivals i)[k]? = some a → (c.arrivals j)[k]? = some b → a = b

theorem getElem?_arrive {c : Cluster n} {k : Nat} (found : (Function.update c.arrivals i (c.arrivals i++[number]) j)[k]? = some a) :
    (c.arrivals j)[k]? = some a ∨ (j = i ∧ k = (c.arrivals i).length ∧ a = number) := by
  by_cases same : j = i
  · subst j
    rw [Function.update_self] at found
    rcases getElem?_concat_cases found with old | ⟨last,same⟩
    · exact .inl old
    · exact .inr ⟨rfl,last,same⟩
  · rw [Function.update_of_ne same] at found
    exact .inl found

theorem aligned_moves {c next : Cluster n} (aligned : Aligned c) (sameOrder : SameOrder c action)
    (ran : Moves hasher c action next) : Aligned next := by
  cases ran with
  | deliver message _ moved =>
    rename_i cause _ _ _
    cases cause with
    | ack => exact aligned
    | request number =>
      have ordered := fun j => sameOrder _ message number rfl _ j rfl
      intro j j' k a b found found'
      rcases getElem?_arrive found with old | ⟨rfl,rfl,rfl⟩
      · rcases getElem?_arrive found' with old' | ⟨rfl,rfl,rfl⟩
        · exact aligned j j' k a b old old'
        · exact ordered j a old
      · rcases getElem?_arrive found' with old' | ⟨_,_,rfl⟩
        · exact (ordered j' b old').symm
        · rfl
  | _ => exact aligned

-- The request that an announcement moved out of a late buffer is the one it was
-- made for: both servers were given it as the same client's request.
def RightRequest (c : Cluster n) : Prop :=
  ∀ i j deadline r, ((c.servers i).seqPaxos.pid,deadline,r) ∈ (c.servers j).seqPaxos.history.freed →
    (r.privateId,deadline) ∈ (c.servers i).seqPaxos.history.announced →
    ∃ number p, (c.arrivals i)[r.privateId]? = some number ∧ (c.arrivals j)[r.privateId]? = some number ∧
      (c.servers i).proposed[r.privateId]? = some p ∧ p.command.key = r.key

theorem rightRequest_of_aligned {c : Cluster n} (known : Known hasher faultTolerance c) (numbered : Numbered c)
    (aligned : Aligned c) : RightRequest c := by
  intro i j deadline r freed announced
  obtain ⟨owner,owned⟩ := known.owned i
  obtain ⟨owner',owned'⟩ := known.owned j
  obtain ⟨q,dated,there,same⟩ := owned'.freed _ freed
  have here := List.getElem?_eq_getElem (owned.announced _ announced)
  obtain ⟨number,conn,arrived,asked⟩ := numbered.asked i _ _ here
  obtain ⟨number',conn',arrived',asked'⟩ := numbered.asked j _ _ there
  cases aligned i j _ number number' arrived arrived'
  refine ⟨number,_,arrived,arrived',here,?_⟩
  have request := asked.symm.trans asked'
  simp only [Option.some.injEq,Prod.mk.injEq,ClientMessage.append.injEq] at request
  have key : r.key = q.command.key := (congrArg Command.key same).trans rfl
  rw [key]
  exact Prod.ext request.2.1 request.2.2

theorem announcement_names_request (hasher : List UInt8 → UInt64) (configs : Fin n → ServerConfig)
    (times : Fin n → SystemTime) (faultTolerance : Nat) (initial c : Cluster n) (actions : List (Cluster.Act n))
    (created : Cluster.new configs times faultTolerance = some initial)
    (path : Runs (Cluster.step hasher) SameOrder initial actions c) : RightRequest c := by
  have start : Aligned initial := by
    cases Cluster.new_eq created
    intro i j k a b found
    simp at found
  have all := path.invariant (fun c => Known hasher faultTolerance c ∧ Numbered c ∧ Aligned c) ?_
    ⟨known_new created,numbered_new created,start⟩
  · exact rightRequest_of_aligned all.1 all.2.1 all.2.2
  · intro c action next holds meets ran
    have moved := moves_sound ran
    obtain ⟨known,numbered,aligned⟩ := holds
    exact ⟨known_moves known moved,numbered_moves known numbered moved,aligned_moves aligned meets moved⟩

-- The leader is given two requests and announces a deadline for the second; by
-- then the first replica holds a second request of its own in its late buffer.
def lateAnnouncement : List (Cluster.Act 3) :=
  [.server second (.task 0 0),.server second .wait,.server second (.task 1 0),.server second (.task 1 0),
   .server second .send,.server first (.task 0 0),.server first .wait,.server first (.task 1 0),
   .exchange second 0 first,.server first (.task 2 0)]

def twoRequests : List (Cluster.Act 3) := startUp++ask 0 7 "1"::ask 1 8 "2"::relay 0 [0,1]++relay 1 [0,1]

def sameArrivals : List (Cluster.Act 3) := twoRequests++[Cluster.Act.deliver 1,.deliver 3,.deliver 0,.deliver 2]++lateAnnouncement

def crossedArrivals : List (Cluster.Act 3) := twoRequests++[Cluster.Act.deliver 1,.deliver 3,.deliver 2,.deliver 0]++lateAnnouncement

-- The first replica freed a request that the second had announced.
def Freed (c : Cluster 3) (judge : Command → Prop) : Prop :=
  ∃ record ∈ (c.servers first).seqPaxos.history.freed, record.1 = (c.servers second).seqPaxos.pid ∧
    (record.2.2.privateId,record.2.1) ∈ (c.servers second).seqPaxos.history.announced ∧ judge record.2.2

instance (c : Cluster 3) (judge : Command → Prop) [DecidablePred judge] : Decidable (Freed c judge) :=
  inferInstanceAs (Decidable (∃ record ∈ (c.servers first).seqPaxos.history.freed, _))

theorem announcement_names_request_in_order : ∃ c : Cluster 3,
    Runs (Cluster.step SipHash.hash) SameOrder sampleCluster sameArrivals c ∧ Freed c (fun r => r.id = 8) ∧
    RightRequest c := by
  obtain ⟨c,path,freed⟩ := run_reaches (Cluster.step SipHash.hash) SameOrder (fun c => Freed c (fun r => r.id = 8))
    sampleCluster sameArrivals (by decide +kernel)
  exact ⟨c,path,freed,announcement_names_request SipHash.hash sampleConfig (fun _ => Duration.fromMillis 1000) 1
    sampleCluster c sameArrivals rfl path⟩

theorem announcement_names_other : ¬ ∀ (n : Nat) (configs : Fin n → ServerConfig) (times : Fin n → SystemTime)
    (faultTolerance : Nat) (initial c : Cluster n) (actions : List (Cluster.Act n)),
    Cluster.new configs times faultTolerance = some initial → Reaches (Cluster.step SipHash.hash) initial actions c →
    RightRequest c := by
  intro claimed
  obtain ⟨c,path,⟨pid,deadline,r⟩,freed,sender,announced,differ⟩ := run_reaches (Cluster.step SipHash.hash)
    (fun _ _ => True) (fun c => Freed c (fun r => (c.arrivals first)[r.privateId]? ≠ (c.arrivals second)[r.privateId]?))
    sampleCluster crossedArrivals (by decide +kernel)
  cases sender
  obtain ⟨number,p,here,there,_⟩ := claimed 3 sampleConfig (fun _ => Duration.fromMillis 1000) 1 sampleCluster c
    crossedArrivals rfl path second first deadline r freed announced
  exact differ (there.trans here.symm)

end OmniPaxosKV.Numbering

import OmniPaxosKV.Leadership

-- The ballots of the election over whole runs of a cluster: what a closed round
-- can return, and in which order.
namespace OmniPaxosKV.Ballots
open Machine Leadership

theorem ballot_le_refl (b : Ballot) : b ≤ b := (le_iff_rank ..).mpr le_rfl

theorem ballot_le_trans {a b c : Ballot} (first : a ≤ b) (second : b ≤ c) : a ≤ c :=
  (le_iff_rank ..).mpr (le_trans ((le_iff_rank ..).mp first) ((le_iff_rank ..).mp second))

theorem ballot_le_of_lt {a b : Ballot} (less : a < b) : a ≤ b :=
  (le_iff_rank ..).mpr (le_of_lt ((lt_iff_rank ..).mp less))

theorem ballot_le_of_not_lt {a b : Ballot} (notLess : ¬ b < a) : a ≤ b :=
  (le_iff_rank ..).mpr ((not_lt_iff_rank ..).mp notLess)

theorem takeover_leader (s : BallotLeaderElection) : s.leader ≤ s.checkTakeover.leader := by
  unfold BallotLeaderElection.checkTakeover
  split
  · apply ballot_le_of_lt
    rw [lt_iff_rank]
    exact Prod.Lex.toLex_lt_toLex.mpr (.inl (Nat.lt_succ_self _))
  · exact ballot_le_refl _

theorem adopt_leader (s : BallotLeaderElection) (promise : Ballot) :
    s.leader ≤ (s.adoptPromise promise).leader ∧ promise ≤ (s.adoptPromise promise).leader := by
  unfold BallotLeaderElection.adoptPromise
  split
  · rename_i behind
    exact ⟨ballot_le_of_lt behind,ballot_le_refl _⟩
  · rename_i ahead
    exact ⟨ballot_le_refl _,ballot_le_of_not_lt ahead⟩

-- Four sub-steps change the leader's ballot, and each only raises it.
theorem timeout_leader (s : BallotLeaderElection) (state : Role × Phase) (promise : Ballot) :
    (∀ b ∈ known s, b ≤ (s.hbTimeout state promise).2.leader) ∧ promise ≤ (s.hbTimeout state promise).2.leader := by
  let updated := s.updateLeader.updateHappiness state
  have taken : updated.leader ≤ updated.checkTakeover.leader := takeover_leader updated
  have adopted := adopt_leader updated.checkTakeover.newHbRound promise
  refine ⟨fun b heard => ?_,adopted.2⟩
  have greatest : b ≤ updated.leader := (le_iff_rank ..).mpr ((updateLeader_spec s).2.2 b heard)
  exact ballot_le_trans greatest (ballot_le_trans taken adopted.1)

-- What a closed round returns is the leader's ballot, and that is the node's own.
theorem timeout_returned {s : BallotLeaderElection} (own : s.currentBallot.pid = s.pid)
    (returned : (s.hbTimeout state promise).1 = some b) : b.pid = s.pid ∧ b = (s.hbTimeout state promise).2.leader := by
  have closed := hbTimeout_closed s state promise
  have result := closed.result
  rw [returned] at result
  split at result
  · rename_i same
    cases Option.some.inj result
    exact ⟨closed.settles.own own,same.symm⟩
  · cases result

-- A node with every ballot it has returned so far, oldest first.
structure Elector where
  ble : BallotLeaderElection
  returned : List Ballot := []

-- Electors and the messages that have arrived, named by who sent them and as
-- which of the messages it sent.
structure Electorate (n : Nat) where
  nodes : Fin n → Elector
  delivered : List (Fin n × Nat) := []

-- Heartbeats stay with the node that sent them and arrive at any later time or
-- never; the replica's state and promise may be anything when a round closes.
inductive Act (n : Nat) where
  | timeout (i : Fin n) (state : Role × Phase) (promise : Ballot)
  | deliver (source : Fin n) (place : Nat) (target : Fin n)
  | setPriority (i : Fin n) (priority : Nat)

def Elector.timeout (e : Elector) (state : Role × Phase) (promise : Ballot) : Elector :=
  let (result,ble) := e.ble.hbTimeout state promise
  ⟨ble,e.returned++result.toList⟩

def step (c : Electorate n) : Act n → Option (Electorate n)
  | .timeout i state promise => some {c with nodes:=Function.update c.nodes i ((c.nodes i).timeout state promise)}
  | .deliver source place target => match (c.nodes source).ble.outgoing[place]? with
    | none => none
    | some m =>
      if m.receiver = (c.nodes target).ble.pid then
        some ⟨Function.update c.nodes target {c.nodes target with ble:=(c.nodes target).ble.handle m},
          c.delivered++[(source,place)]⟩
      else none
  | .setPriority i priority => some {c with
      nodes:=Function.update c.nodes i {c.nodes i with ble:=(c.nodes i).ble.setPriority priority}}

def start (configs : Fin n → BLEConfig) (recovered : Fin n → Option Ballot) : Electorate n where
  nodes i := ⟨.new (configs i) (recovered i),[]⟩

-- What one node does in a step of the cluster.
inductive Move (sent : BLEMessage → Prop) (e : Elector) : Elector → Prop where
  | stay : Move sent e e
  | timeout : Move sent e (e.timeout state promise)
  | hear (m : BLEMessage) (genuine : sent m) (receiver : m.receiver = e.ble.pid) :
      Move sent e {e with ble:=e.ble.handle m}
  | setPriority : Move sent e {e with ble:=e.ble.setPriority priority}

theorem step_moves {c next : Electorate n} (ran : step c action = some next) (i : Fin n) :
    Move (fun m => ∃ source, m ∈ (c.nodes source).ble.outgoing) (c.nodes i) (next.nodes i) := by
  have update : ∀ (j : Fin n) (e : Elector),
      Move (fun m => ∃ source, m ∈ (c.nodes source).ble.outgoing) (c.nodes j) e →
      Move (fun m => ∃ source, m ∈ (c.nodes source).ble.outgoing) (c.nodes i) (Function.update c.nodes j e i) := by
    intro j e moved
    by_cases same : i = j
    · subst same; rw [Function.update_self]; exact moved
    · rw [Function.update_of_ne same]; exact .stay
  cases action with
  | timeout j state promise => cases Option.some.inj ran; exact update j _ .timeout
  | setPriority j priority => cases Option.some.inj ran; exact update j _ .setPriority
  | deliver source place target =>
    simp only [step] at ran
    split at ran
    · cases ran
    · rename_i m sent
      split at ran
      · rename_i receiver
        cases Option.some.inj ran
        exact update target _ (.hear m ⟨source,List.mem_of_getElem? sent⟩ receiver)
      · cases ran

theorem move_leader {e next : Elector} (moved : Move sent e next) : e.ble.leader ≤ next.ble.leader := by
  cases moved with
  | stay => exact ballot_le_refl _
  | timeout => exact (timeout_leader ..).1 _ List.mem_cons_self
  | hear m =>
    obtain ⟨replies,outgoing,same⟩ := handle_parts e.ble m
    rw [same]
    exact ballot_le_refl _
  | setPriority => exact ballot_le_refl _

-- A node's ballots are its own and come out in order, none above its leader's.
structure Ordered (key : NodeId) (e : Elector) : Prop where
  pid : e.ble.pid = key
  own : e.ble.currentBallot.pid = e.ble.pid
  returned : ∀ b ∈ e.returned, b.pid = key ∧ b ≤ e.ble.leader
  ordered : e.returned.Pairwise (· ≤ ·)

theorem new_ordered (config : BLEConfig) (recovered : Option Ballot) : Ordered config.pid ⟨.new config recovered,[]⟩ :=
  ⟨rfl,(new_ballots config recovered).1,nofun,.nil⟩

theorem option_ordered (result : Option Ballot) : result.toList.Pairwise (· ≤ ·) := by
  cases result with
  | none => exact .nil
  | some b => exact List.pairwise_singleton _ b

theorem timeout_ordered {e : Elector} (valid : Ordered key e) : Ordered key (e.timeout state promise) := by
  have closed := hbTimeout_closed e.ble state promise
  have raised : e.ble.leader ≤ (e.ble.hbTimeout state promise).2.leader := (timeout_leader ..).1 _ List.mem_cons_self
  have latest : ∀ b ∈ (e.ble.hbTimeout state promise).1.toList,
      b.pid = key ∧ b = (e.ble.hbTimeout state promise).2.leader := by
    intro b member
    have returned := timeout_returned valid.own (Option.mem_toList.mp member)
    exact ⟨returned.1.trans valid.pid,returned.2⟩
  refine ⟨closed.pid.trans valid.pid,(closed.settles.own valid.own).trans closed.pid.symm,?_,?_⟩
  · intro b member
    rcases List.mem_append.mp member with old | new
    · exact ⟨(valid.returned b old).1,ballot_le_trans (valid.returned b old).2 raised⟩
    · exact ⟨(latest b new).1,(latest b new).2 ▸ ballot_le_refl _⟩
  · refine List.pairwise_append.mpr ⟨valid.ordered,?_,?_⟩
    · exact option_ordered _
    · intro old earlier new later
      rw [(latest new later).2]
      exact ballot_le_trans (valid.returned old earlier).2 raised

theorem move_ordered {e next : Elector} (valid : Ordered key e) (moved : Move sent e next) : Ordered key next := by
  cases moved with
  | stay => exact valid
  | timeout => exact timeout_ordered valid
  | hear m =>
    obtain ⟨replies,outgoing,same⟩ := handle_parts e.ble m
    rw [same]
    exact ⟨valid.pid,valid.own,valid.returned,valid.ordered⟩
  | setPriority => exact ⟨valid.pid,valid.own,valid.returned,valid.ordered⟩

theorem run_ordered {configs : Fin n → BLEConfig} {final : Electorate n}
    (path : Reaches step (start configs recovered) actions final) (i : Fin n) :
    Ordered (configs i).pid (final.nodes i) :=
  path.invariant (fun c => Ordered (configs i).pid (c.nodes i))
    (fun _ _ _ valid _ ran => move_ordered valid (step_moves ran i)) (new_ordered (configs i) (recovered i))

-- In every run: no ballot is returned by two nodes; a node's leader and the
-- ballots it returns never go back; and what closing a round returns is the
-- node's own and not below any reply of the round or the promise.
theorem election_ballots {n : Nat} (configs : Fin n → BLEConfig) (recovered : Fin n → Option Ballot)
    (distinct : Function.Injective fun i => (configs i).pid) (actions : List (Act n)) (final : Electorate n)
    (path : Reaches step (start configs recovered) actions final) :
    (∀ i j b, b ∈ (final.nodes i).returned → b ∈ (final.nodes j).returned → i = j) ∧
    (∀ i, (final.nodes i).returned.Pairwise (· ≤ ·)) ∧
    (∀ action next i, step final action = some next → (final.nodes i).ble.leader ≤ (next.nodes i).ble.leader) ∧
    (∀ i state promise b, ((final.nodes i).ble.hbTimeout state promise).1 = some b →
      b.pid = (configs i).pid ∧ (∀ reply ∈ (final.nodes i).ble.heartbeatReplies, reply.ballot ≤ b) ∧ promise ≤ b) := by
  have valid := run_ordered path
  refine ⟨fun i j b first second => ?_,fun i => (valid i).ordered,fun action next i ran => move_leader (step_moves ran i),
    fun i state promise b returned => ?_⟩
  · exact distinct (((valid i).returned b first).1.symm.trans ((valid j).returned b second).1)
  · obtain ⟨own,same⟩ := timeout_returned (valid i).own returned
    obtain ⟨above,promised⟩ := timeout_leader (final.nodes i).ble state promise
    rw [same]
    refine ⟨?_,fun reply heard => ?_,promised⟩
    · rw [←same]
      exact own.trans (valid i).pid
    · exact above _ (List.mem_cons_of_mem _ (List.mem_map_of_mem heard))

def samplePeers (i : Fin 3) : BLEConfig := (sampleConfig (i.val+1)).omniPaxosConfig.bleConfig

theorem samplePeers_distinct : Function.Injective fun i : Fin 3 => (samplePeers i).pid := by
  intro i j same
  exact Fin.ext (Nat.add_right_cancel same)

def sampleFirst : Fin 3 := ⟨0,by decide⟩
def sampleSecond : Fin 3 := ⟨1,by decide⟩

-- The first node asks, the second answers with its own ballot, and both close a round.
def sampleRounds : List (Act 3) :=
  [.deliver sampleFirst 0 sampleSecond,.deliver sampleSecond 2 sampleFirst,.timeout sampleFirst (.follower,.none) {},
    .timeout sampleSecond (.follower,.none) {n:=4,pid:=2},.setPriority sampleSecond 7]

theorem election_ballots_sample : ∃ final, Reaches step (start samplePeers fun _ => none) sampleRounds final ∧
    (final.nodes sampleSecond).returned = [{n:=4,pid:=2}] ∧
    ∀ i j b, b ∈ (final.nodes i).returned → b ∈ (final.nodes j).returned → i = j := by
  obtain ⟨final,path,reached⟩ := run_reaches step (fun _ _ => True)
    (fun c : Electorate 3 => (c.nodes sampleSecond).returned = [{n:=4,pid:=2}])
    (start samplePeers fun _ => none) sampleRounds (by decide +kernel)
  exact ⟨final,path,reached,(election_ballots samplePeers (fun _ => none) samplePeers_distinct _ final path).1⟩

end OmniPaxosKV.Ballots

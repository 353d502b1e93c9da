import Mathlib.Data.Prod.Lex
import OmniPaxosKV.Config
import OmniPaxosKV.Machine

-- Who leads: the two ballots of the election, the promise of the replica, and
-- the role that a closed heartbeat round leaves the replica in.
namespace OmniPaxosKV.Leadership
open Machine

-- Ballots compare as triples.
def rank (b : Ballot) : ℕ ×ₗ ℕ ×ₗ ℕ := toLex (b.n,toLex (b.priority,b.pid))

theorem lt_iff_rank (a b : Ballot) : a < b ↔ rank a < rank b := by
  change Ballot.lt a b = true ↔ _
  simp [Ballot.lt,rank,Prod.Lex.toLex_lt_toLex]

theorem le_iff_rank (a b : Ballot) : a ≤ b ↔ rank a ≤ rank b := by
  have equal : a ≤ b ↔ ¬ b < a := by
    change Ballot.lt b a = false ↔ ¬ Ballot.lt b a = true
    simp
  rw [equal,lt_iff_rank,not_lt]

theorem not_lt_iff_rank (a b : Ballot) : ¬ a < b ↔ rank b ≤ rank a := by
  rw [lt_iff_rank,not_lt]

theorem pid_of_rank {a b : Ballot} (same : rank a = rank b) : a.pid = b.pid := by
  simp only [rank,EmbeddingLike.apply_eq_iff_eq,Prod.mk.injEq] at same
  exact same.2.2

-- The iterator's maximum is in the list, and nothing in the list is above it.
theorem maxBallot_spec {ballots : List Ballot} (found : BallotLeaderElection.maxBallot ballots = some top) :
    top ∈ ballots ∧ ∀ b ∈ ballots, rank b ≤ rank top := by
  cases ballots with
  | nil => cases found
  | cons first rest =>
    cases Option.some.inj found
    clear found
    induction rest generalizing first with
    | nil => simp
    | cons next rest ih =>
      rw [List.foldl_cons]
      obtain ⟨member,above⟩ := ih (if next < first then first else next)
      have start : rank first ≤ rank (if next < first then first else next) ∧
          rank next ≤ rank (if next < first then first else next) := by
        split
        · rename_i less
          exact ⟨le_refl _,le_of_lt ((lt_iff_rank ..).mp less)⟩
        · rename_i notLess
          exact ⟨(not_lt_iff_rank ..).mp notLess,le_refl _⟩
      have least := above _ List.mem_cons_self
      refine ⟨?_,?_⟩
      · rcases List.mem_cons.mp member with same | later
        · rw [same]
          split <;> simp
        · exact List.mem_cons_of_mem _ (List.mem_cons_of_mem _ later)
      · intro b present
        rcases List.mem_cons.mp present with rfl | present
        · exact le_trans start.1 least
        · rcases List.mem_cons.mp present with rfl | present
          · exact le_trans start.2 least
          · exact above b (List.mem_cons_of_mem _ present)

-- The ballots a node knows when it closes a round: its leader's and the replies'.
def known (s : BallotLeaderElection) : List Ballot := s.leader::s.heartbeatReplies.map (·.ballot)

theorem updateLeader_spec (s : BallotLeaderElection) :
    s.updateLeader = {s with leader:=s.updateLeader.leader} ∧ s.updateLeader.leader ∈ known s ∧
    ∀ b ∈ known s, rank b ≤ rank s.updateLeader.leader := by
  unfold BallotLeaderElection.updateLeader known
  split
  · rename_i none
    cases replies : s.heartbeatReplies.map (·.ballot) with
    | nil => simp
    | cons b rest => rw [replies] at none; cases none
  · rename_i top found
    obtain ⟨member,above⟩ := maxBallot_spec found
    split
    · rename_i more
      refine ⟨rfl,List.mem_cons_of_mem _ member,?_⟩
      intro b present
      rcases List.mem_cons.mp present with rfl | present
      · exact le_of_lt ((lt_iff_rank ..).mp more)
      · exact above b present
    · rename_i less
      refine ⟨rfl,List.mem_cons_self,?_⟩
      intro b present
      rcases List.mem_cons.mp present with rfl | present
      · exact le_refl _
      · exact le_trans (above b present) ((not_lt_iff_rank ..).mp less)

-- The ballot a node takes over with.
def raised (s : BallotLeaderElection) : Ballot := {s.currentBallot with n:=s.updateLeader.leader.n+1}

def takesOver (s : BallotLeaderElection) (state : Role × Phase) : Bool :=
  !(s.updateLeader.updateHappiness state).happy && (s.heartbeatReplies.all fun r => !r.happy) &&
    s.quorum.isPrepareQuorum (s.heartbeatReplies.length+1)

-- Where the leader's ballot and the own one stand when a round has been closed.
inductive Settles (s : BallotLeaderElection) (state : Role × Phase) (promise : Ballot) : Ballot → Ballot → Prop where
  | takeover (wins : takesOver s state = true) : Settles s state promise (raised s) (raised s)
  | follow (stays : takesOver s state = false) (known : ¬ s.updateLeader.leader < promise) :
      Settles s state promise s.updateLeader.leader s.currentBallot
  | promised (behind : takesOver s state = true ∨ s.updateLeader.leader < promise) (own : promise.pid = s.pid) :
      Settles s state promise promise promise
  | told (behind : takesOver s state = true ∨ s.updateLeader.leader < promise) (other : promise.pid ≠ s.pid)
      (same : current.pid = s.currentBallot.pid) : Settles s state promise promise current

theorem Settles.own {s : BallotLeaderElection} (settles : Settles s state promise leader current)
    (own : s.currentBallot.pid = s.pid) : current.pid = s.pid := by
  cases settles with
  | takeover => exact own
  | follow => exact own
  | promised _ mine => exact mine
  | told _ _ same => exact same.trans own

-- All that closing a round does.
structure Closed (s : BallotLeaderElection) (state : Role × Phase) (promise : Ballot)
    (result : Option Ballot) (next : BallotLeaderElection) : Prop where
  settles : Settles s state promise next.leader next.currentBallot
  result : result = if next.leader = next.currentBallot then some next.currentBallot else none
  pid : next.pid = s.pid
  peers : next.peers = s.peers
  round : next.hbRound = s.hbRound+1
  replies : next.heartbeatReplies = []
  outgoing : next.outgoing = s.outgoing++s.peers.map fun peer => ⟨s.pid,peer,.request (s.hbRound+1)⟩

theorem closed_adopt (s t : BallotLeaderElection) (state : Role × Phase) (promise : Ballot)
    (pid : t.pid = s.pid) (peers : t.peers = s.peers) (round : t.hbRound = s.hbRound) (outgoing : t.outgoing = s.outgoing)
    (kept : (takesOver s state = true ∧ t.leader = raised s ∧ t.currentBallot = raised s) ∨
      (takesOver s state = false ∧ t.leader = s.updateLeader.leader ∧ t.currentBallot = s.currentBallot)) :
    Closed s state promise
      (if (t.newHbRound.adoptPromise promise).leader = (t.newHbRound.adoptPromise promise).currentBallot
        then some (t.newHbRound.adoptPromise promise).currentBallot else none)
      (t.newHbRound.adoptPromise promise) := by
  have fixed : t.currentBallot.pid = s.currentBallot.pid := by
    rcases kept with ⟨_,_,current⟩ | ⟨_,_,current⟩ <;> rw [current]
    rfl
  have requests : t.newHbRound.outgoing = s.outgoing++s.peers.map fun peer => ⟨s.pid,peer,.request (s.hbRound+1)⟩ := by
    change t.outgoing++t.peers.map _ = _
    rw [outgoing,peers,pid,round]
  unfold BallotLeaderElection.adoptPromise
  split
  · rename_i behind
    change t.leader < promise at behind
    have reason : takesOver s state = true ∨ s.updateLeader.leader < promise := by
      rcases kept with ⟨wins,_⟩ | ⟨_,leader,_⟩
      · exact .inl wins
      · exact .inr (leader ▸ behind)
    refine ⟨?_,rfl,pid,peers,congrArg (·+1) round,rfl,requests⟩
    dsimp only
    split
    · rename_i own
      exact .promised reason (own.trans pid)
    · rename_i other
      exact .told reason (fun own => other (own.trans pid.symm)) fixed
  · rename_i notBehind
    change ¬ t.leader < promise at notBehind
    refine ⟨?_,rfl,pid,peers,congrArg (·+1) round,rfl,requests⟩
    change Settles s state promise t.leader t.currentBallot
    rcases kept with ⟨wins,leader,current⟩ | ⟨stays,leader,current⟩
    · rw [leader,current]
      exact .takeover wins
    · rw [leader] at notBehind ⊢
      rw [current]
      exact .follow stays notBehind

theorem hbTimeout_closed (s : BallotLeaderElection) (state : Role × Phase) (promise : Ballot) :
    Closed s state promise (s.hbTimeout state promise).1 (s.hbTimeout state promise).2 := by
  have update := (updateLeader_spec s).1
  -- Happiness touches no ballot, so a takeover alone decides where they stand.
  generalize seen : s.updateLeader.updateHappiness state = u
  have pid : u.pid = s.pid := by rw [←seen]; exact congrArg (·.pid) update
  have peers : u.peers = s.peers := by rw [←seen]; exact congrArg (·.peers) update
  have round : u.hbRound = s.hbRound := by rw [←seen]; exact congrArg (·.hbRound) update
  have outgoing : u.outgoing = s.outgoing := by rw [←seen]; exact congrArg (·.outgoing) update
  have replies : u.heartbeatReplies = s.heartbeatReplies := by rw [←seen]; exact congrArg (·.heartbeatReplies) update
  have quorum : u.quorum = s.quorum := by rw [←seen]; exact congrArg (·.quorum) update
  have current : u.currentBallot = s.currentBallot := by rw [←seen]; exact congrArg (·.currentBallot) update
  have leader : u.leader = s.updateLeader.leader := by rw [←seen]; rfl
  have wins : (!u.happy && (u.heartbeatReplies.all fun r => !r.happy) &&
      u.quorum.isPrepareQuorum (u.heartbeatReplies.length+1)) = takesOver s state := by
    unfold takesOver
    rw [seen,replies,quorum]
  unfold BallotLeaderElection.hbTimeout
  dsimp only
  rw [seen]
  unfold BallotLeaderElection.checkTakeover
  rw [wins]
  split
  · rename_i taken
    have above : {u.currentBallot with n:=u.leader.n+1} = raised s := by rw [current,leader]; rfl
    exact closed_adopt s _ state promise pid peers round outgoing (.inl ⟨taken,above,above⟩)
  · rename_i kept
    exact closed_adopt s u state promise pid peers round outgoing (.inr ⟨Bool.eq_false_iff.mpr kept,leader,current⟩)

-- A heartbeat changes no ballot.
theorem handle_parts (s : BallotLeaderElection) (m : BLEMessage) :
    ∃ replies outgoing, s.handle m = {s with heartbeatReplies:=replies,outgoing:=outgoing} := by
  unfold BallotLeaderElection.handle
  split
  · exact ⟨_,_,rfl⟩
  · split
    · exact ⟨_,_,rfl⟩
    · exact ⟨_,_,rfl⟩

section Node
variable {T : Type}

-- What one node does between messages of the log.
inductive Act where
  | tick
  | heartbeat (m : BLEMessage)
  | tryBecomeLeader
  deriving DecidableEq

def step (s : OmniPaxos T) : Act → Option (OmniPaxos T)
  | .tick => some s.tick
  | .heartbeat m => some {s with ble:=s.ble.handle m}
  | .tryBecomeLeader => some s.tryBecomeLeader

-- The next tick is an election timeout.
def Closing (s : OmniPaxos T) : Prop := s.electionClock.tickAndCheckTimeout.1 = true

instance (s : OmniPaxos T) : Decidable (Closing s) := inferInstanceAs (Decidable (_ = true))

theorem handleLeader_own {s : SequencePaxos T} {n : Ballot} (own : s.pid = n.pid) (promised : s.nLeader = s.promise) :
    (s.handleLeader n).pid = s.pid ∧ (s.handleLeader n).nLeader = (s.handleLeader n).promise ∧
    (s.handleLeader n).promise = (if s.promise < n then n else s.promise) ∧
    (s.handleLeader n).role = if s.promise < n then .leader else s.role := by
  have refused : (n ≤ s.nLeader ∨ n ≤ s.promise) ↔ ¬ s.promise < n := by
    rw [promised,or_self,le_iff_rank,not_lt_iff_rank]
  unfold SequencePaxos.handleLeader
  by_cases more : s.promise < n
  · rw [if_neg (fun held => refused.mp held more),if_pos own,if_pos more,if_pos more]
    exact ⟨rfl,rfl,rfl,rfl⟩
  · rw [if_pos (refused.mpr more),if_neg more,if_neg more]
    exact ⟨rfl,promised,rfl,rfl⟩

-- Election and replica agree on whose ballot is whose, and a node that is its
-- own leader has been made leader by its replica, but for its very first round.
structure Standing (s : OmniPaxos T) : Prop where
  pid : s.ble.pid = s.seqPaxos.pid
  own : s.ble.currentBallot.pid = s.ble.pid
  promised : s.seqPaxos.nLeader = s.seqPaxos.promise
  leads : s.seqPaxos.role = .leader → s.seqPaxos.promise.pid = s.ble.pid
  round : 1 ≤ s.ble.hbRound
  opening : s.ble.hbRound = 1 → s.seqPaxos.promise = {} →
    s.ble.leader = s.ble.currentBallot ∧ s.ble.currentBallot.n = 1
  settled : s.ble.leader = s.ble.currentBallot →
    (s.ble.hbRound = 1 ∧ s.seqPaxos.promise = {}) ∨ ¬ s.seqPaxos.promise < s.ble.currentBallot

theorem standing_handle {s : OmniPaxos T} (standing : Standing s) (m : BLEMessage) :
    Standing {s with ble:=s.ble.handle m} := by
  obtain ⟨replies,outgoing,same⟩ := handle_parts s.ble m
  rw [same]
  exact ⟨standing.pid,standing.own,standing.promised,standing.leads,standing.round,standing.opening,standing.settled⟩

theorem standing_tryBecomeLeader {s : OmniPaxos T} (standing : Standing s) : Standing s.tryBecomeLeader := by
  have own : s.seqPaxos.pid = ({s.ble.currentBallot with n:=s.seqPaxos.promise.n+1} : Ballot).pid :=
    (standing.own.trans standing.pid).symm
  have more : s.seqPaxos.promise < {s.ble.currentBallot with n:=s.seqPaxos.promise.n+1} := by
    rw [lt_iff_rank]
    exact Prod.Lex.toLex_lt_toLex.mpr (.inl (Nat.lt_succ_self _))
  obtain ⟨pid,promised,promise,_⟩ := handleLeader_own own standing.promised
  rw [if_pos more] at promise
  refine ⟨standing.pid.trans pid.symm,standing.own,promised,?_,standing.round,?_,?_⟩
  · intro _
    change (s.seqPaxos.handleLeader _).promise.pid = _
    rw [promise]
    exact standing.own
  · intro _ fresh
    change (s.seqPaxos.handleLeader _).promise = {} at fresh
    rw [promise] at fresh
    cases congrArg Ballot.n fresh
  · intro same
    right
    change ¬ (s.seqPaxos.handleLeader _).promise < s.ble.currentBallot
    rw [promise,not_lt_iff_rank]
    rcases standing.settled same with ⟨first,fresh⟩ | above
    · have initial := (standing.opening first fresh).2
      rw [fresh]
      change rank s.ble.currentBallot ≤ rank {s.ble.currentBallot with n:=1}
      rw [←initial]
    · exact le_trans ((not_lt_iff_rank ..).mp above) (le_of_lt ((lt_iff_rank ..).mp more))

theorem tick_waiting {s : OmniPaxos T} (waiting : ¬ Closing s) : ∃ clock, s.tick = {s with electionClock:=clock} := by
  unfold Closing at waiting
  unfold OmniPaxos.tick
  split
  · rename_i timeout
    rw [timeout] at waiting
    exact absurd rfl waiting
  · exact ⟨_,rfl⟩

-- The replica hears of a closed round only when the node is its own leader.
theorem tick_timeout {s : OmniPaxos T} (closing : Closing s) : ∃ clock,
    s.tick = ⟨if (s.ble.hbTimeout s.seqPaxos.state s.seqPaxos.promise).2.leader =
        (s.ble.hbTimeout s.seqPaxos.state s.seqPaxos.promise).2.currentBallot then
      s.seqPaxos.handleLeader (s.ble.hbTimeout s.seqPaxos.state s.seqPaxos.promise).2.currentBallot
      else s.seqPaxos,(s.ble.hbTimeout s.seqPaxos.state s.seqPaxos.promise).2,clock⟩ := by
  have closed := hbTimeout_closed s.ble s.seqPaxos.state s.seqPaxos.promise
  unfold Closing at closing
  unfold OmniPaxos.tick
  split
  · rename_i clock timeout
    refine ⟨clock,?_⟩
    unfold OmniPaxos.electionTimeout
    dsimp only
    split
    · rename_i ble silent
      rw [silent] at closed ⊢
      have result := closed.result
      split at result
      · cases result
      · rename_i other
        rw [if_neg other]
    · rename_i newLeader ble told
      rw [told] at closed ⊢
      have result := closed.result
      split at result
      · rename_i same
        rw [if_pos same,←Option.some.inj result]
      · cases result
  · rename_i timeout
    rw [timeout] at closing
    cases closing

theorem tick_closing {s : OmniPaxos T} (closing : Closing s) : ∃ clock ble result,
    Closed s.ble s.seqPaxos.state s.seqPaxos.promise result ble ∧ s.tick = ⟨if ble.leader = ble.currentBallot then
      s.seqPaxos.handleLeader ble.currentBallot else s.seqPaxos,ble,clock⟩ := by
  obtain ⟨clock,same⟩ := tick_timeout closing
  exact ⟨clock,_,_,hbTimeout_closed s.ble s.seqPaxos.state s.seqPaxos.promise,same⟩

theorem standing_tick {s : OmniPaxos T} (standing : Standing s) : Standing s.tick := by
  by_cases closing : Closing s
  · obtain ⟨clock,ble,result,closed,same⟩ := tick_closing closing
    rw [same]
    have own : ble.currentBallot.pid = ble.pid := (closed.settles.own standing.own).trans closed.pid.symm
    have later : ble.hbRound ≠ 1 := by
      rw [closed.round]
      have := standing.round
      omega
    by_cases led : ble.leader = ble.currentBallot
    · rw [if_pos led]
      have mine : s.seqPaxos.pid = ble.currentBallot.pid := standing.pid.symm.trans (closed.pid.symm.trans own.symm)
      obtain ⟨pid,promised,promise,role⟩ := handleLeader_own mine standing.promised
      refine ⟨closed.pid.trans (standing.pid.trans pid.symm),own,promised,?_,Nat.le_of_lt ?_,
        fun first => absurd first later,?_⟩
      · intro leads
        change (s.seqPaxos.handleLeader _).role = _ at leads
        change (s.seqPaxos.handleLeader _).promise.pid = ble.pid
        rw [promise]
        rw [role] at leads
        split
        · exact own
        · rw [if_neg ‹_›] at leads
          exact (standing.leads leads).trans closed.pid.symm
      · change 1 < ble.hbRound
        rw [closed.round]
        exact Nat.lt_succ_of_le standing.round
      · intro _
        right
        change ¬ (s.seqPaxos.handleLeader _).promise < ble.currentBallot
        rw [promise,not_lt_iff_rank]
        split
        · exact le_refl _
        · exact (not_lt_iff_rank ..).mp ‹_›
    · rw [if_neg led]
      refine ⟨closed.pid.trans standing.pid,own,standing.promised,?_,?_,fun first => absurd first later,
        fun equal => absurd equal led⟩
      · intro leads
        exact (standing.leads leads).trans closed.pid.symm
      · change 1 ≤ ble.hbRound
        rw [closed.round]
        exact Nat.le_add_left ..
  · obtain ⟨clock,same⟩ := tick_waiting closing
    rw [same]
    exact ⟨standing.pid,standing.own,standing.promised,standing.leads,standing.round,standing.opening,standing.settled⟩

theorem standing_step {s next : OmniPaxos T} (standing : Standing s) (ran : step s action = some next) : Standing next := by
  cases action with
  | tick => cases Option.some.inj ran; exact standing_tick standing
  | heartbeat m => cases Option.some.inj ran; exact standing_handle standing m
  | tryBecomeLeader => cases Option.some.inj ran; exact standing_tryBecomeLeader standing

-- A fresh node is its own leader from the start, and a recovering one starts
-- below the ballot it had promised.
theorem new_ballots (config : BLEConfig) (recovered : Option Ballot) :
    (BallotLeaderElection.new config recovered).currentBallot.pid = config.pid ∧
    ((recovered.getD {} = {} ∧
      (BallotLeaderElection.new config recovered).leader = (BallotLeaderElection.new config recovered).currentBallot ∧
      (BallotLeaderElection.new config recovered).currentBallot.n = 1) ∨
    (recovered.getD {} ≠ {} ∧ (BallotLeaderElection.new config recovered).leader = recovered.getD {})) := by
  cases recovered with
  | none => exact ⟨rfl,.inl ⟨rfl,rfl,rfl⟩⟩
  | some b =>
    by_cases default : b = {}
    · subst default
      exact ⟨rfl,.inl ⟨rfl,rfl,rfl⟩⟩
    · refine ⟨?_,.inr ⟨default,?_⟩⟩ <;>
        simp only [BallotLeaderElection.new,if_neg default,BallotLeaderElection.newHbRound,Option.getD_some]

theorem build_parts {config : OmniPaxosConfig} {storage : MemoryStorage T Unit} {s : OmniPaxos T}
    (built : config.build storage clock = .ok s) : s.ble = .new config.bleConfig storage.nProm ∧
    s.seqPaxos.pid = config.serverConfig.pid ∧ s.seqPaxos.role = .follower ∧
    s.seqPaxos.nLeader = storage.nProm.getD {} ∧ s.seqPaxos.promise = storage.nProm.getD {} := by
  unfold OmniPaxosConfig.build at built
  split at built
  · cases built
  · unfold SequencePaxos.withStorage at built
    split at built
    · cases built
    · cases built
      obtain ⟨log,promise,_⟩ := storage
      cases promise <;> exact ⟨rfl,rfl,rfl,rfl,rfl⟩

theorem standing_build {config : OmniPaxosConfig} {storage : MemoryStorage T Unit} {s : OmniPaxos T}
    (built : config.build storage clock = .ok s) : Standing s := by
  obtain ⟨ble,pid,role,nLeader,promise⟩ := build_parts built
  obtain ⟨own,ballots⟩ := new_ballots config.bleConfig storage.nProm
  have first : (BallotLeaderElection.new config.bleConfig storage.nProm).hbRound = 1 := rfl
  refine ⟨?_,?_,nLeader.trans promise.symm,?_,?_,?_,?_⟩
  · rw [ble,pid]; rfl
  · rw [ble]; exact own
  · rw [role]; exact nofun
  · rw [ble,first]
  · rw [ble,promise]
    intro _ fresh
    rcases ballots with ⟨_,same,initial⟩ | ⟨recovers,_⟩
    · exact ⟨same,initial⟩
    · exact absurd fresh recovers
  · rw [ble,promise]
    intro same
    rcases ballots with ⟨fresh,_⟩ | ⟨_,leader⟩
    · exact .inl ⟨first,fresh⟩
    · right
      rw [←same,leader,not_lt_iff_rank]

-- After a timeout that leaves the node with another node's larger ballot as its
-- leader, the replica follows.
def StepsDown (s : OmniPaxos T) : Prop :=
  s.ble.leader.pid ≠ s.seqPaxos.pid → s.seqPaxos.nLeader < s.ble.leader → s.seqPaxos.role = .follower

instance (s : OmniPaxos T) : Decidable (StepsDown s) := inferInstanceAs (Decidable (_ → _ → _))

-- A node that leads closes its round without knowing of a greatest ballot that
-- is another node's and above its own, or it is about to take over.
def Unopposed (s : OmniPaxos T) : Prop :=
  s.seqPaxos.role = .leader → ∀ b ∈ known s.ble, (∀ other ∈ known s.ble, ¬ b < other) →
    b.pid ≠ s.seqPaxos.pid → s.seqPaxos.nLeader < b →
    (∀ r ∈ s.ble.heartbeatReplies, r.happy = false) ∧
      s.ble.quorum.isPrepareQuorum (s.ble.heartbeatReplies.length+1) = true

instance (s : OmniPaxos T) : Decidable (Unopposed s) := inferInstanceAs (Decidable (_ → _))

-- Under another node's ballot, a node takes over as soon as a quorum of replies
-- has no happy one among them.
theorem takesOver_iff {s : BallotLeaderElection} (state : Role × Phase)
    (other : s.updateLeader.leader ≠ s.currentBallot) :
    takesOver s state = true ↔ (∀ r ∈ s.heartbeatReplies, r.happy = false) ∧
      s.quorum.isPrepareQuorum (s.heartbeatReplies.length+1) = true := by
  have update := (updateLeader_spec s).1
  have replies : s.updateLeader.heartbeatReplies = s.heartbeatReplies := congrArg (·.heartbeatReplies) update
  have current : s.updateLeader.currentBallot = s.currentBallot := congrArg (·.currentBallot) update
  have happy : (s.updateLeader.updateHappiness state).happy =
      s.heartbeatReplies.any fun r => decide (r.ballot = s.updateLeader.leader) && r.happy := by
    simp only [BallotLeaderElection.updateHappiness,current,replies,if_neg other]
  unfold takesOver
  rw [happy]
  simp only [Bool.and_eq_true,Bool.not_eq_true',List.all_eq_true,List.any_eq_false,decide_eq_true_eq]
  constructor
  · intro held
    exact ⟨held.1.2,held.2⟩
  · intro held
    refine ⟨⟨?_,held.1⟩,held.2⟩
    intro r member both
    rw [held.1 r member] at both
    cases both.2

-- What a closed round makes of the election under a leading replica.
theorem settles_leading {s : OmniPaxos T} (standing : Standing s) (leads : s.seqPaxos.role = .leader)
    (settles : Settles s.ble s.seqPaxos.state s.seqPaxos.promise leader current) (foreign : leader.pid ≠ s.seqPaxos.pid) :
    takesOver s.ble s.seqPaxos.state = false ∧ leader = s.ble.updateLeader.leader := by
  rw [←standing.pid] at foreign
  cases settles with
  | takeover => exact absurd standing.own foreign
  | follow stays => exact ⟨stays,rfl⟩
  | promised _ own => exact absurd own foreign
  | told => exact absurd (standing.leads leads) foreign

-- A leading replica that a larger ballot does not make take over is left with that ballot.
theorem settles_above {s : OmniPaxos T} (standing : Standing s) (leads : s.seqPaxos.role = .leader)
    (settles : Settles s.ble s.seqPaxos.state s.seqPaxos.promise leader current)
    (stays : ¬ takesOver s.ble s.seqPaxos.state = true) (larger : s.seqPaxos.promise < s.ble.updateLeader.leader) :
    leader = s.ble.updateLeader.leader := by
  cases settles with
  | takeover wins => exact absurd wins stays
  | follow => rfl
  | promised behind own =>
    rcases behind with wins | less
    · exact absurd wins stays
    · rw [lt_iff_rank] at less larger
      exact absurd less (lt_asymm larger)
  | told _ foreign => exact absurd (standing.leads leads) foreign

-- The replica hears nothing of another node's ballot.
theorem tick_foreign {s : OmniPaxos T} (standing : Standing s) (closing : Closing s) : ∃ clock ble result,
    Closed s.ble s.seqPaxos.state s.seqPaxos.promise result ble ∧ s.tick.ble = ble ∧
    s.tick.seqPaxos.pid = s.seqPaxos.pid ∧
    (ble.leader.pid ≠ s.seqPaxos.pid → s.tick = ⟨s.seqPaxos,ble,clock⟩) := by
  obtain ⟨clock,ble,result,closed,same⟩ := tick_closing closing
  have mine : ble.currentBallot.pid = s.seqPaxos.pid := (closed.settles.own standing.own).trans standing.pid
  refine ⟨clock,ble,result,closed,by rw [same],?_,?_⟩
  · rw [same]
    change (if _ then _ else _ : SequencePaxos T).pid = s.seqPaxos.pid
    split
    · exact (handleLeader_own mine.symm standing.promised).1
    · rfl
  · intro foreign
    rw [same,if_neg]
    intro led
    exact foreign (led ▸ mine)

theorem Standing.apart {s : OmniPaxos T} {b : Ballot} (standing : Standing s) (foreign : b.pid ≠ s.seqPaxos.pid) :
    b ≠ s.ble.currentBallot := by
  intro equal
  exact foreign (equal ▸ standing.own.trans standing.pid)

theorem unopposed_of_stepsDown {s : OmniPaxos T} (standing : Standing s) (closing : Closing s) (down : StepsDown s.tick) :
    Unopposed s := by
  obtain ⟨clock,ble,result,closed,_,_,unheard⟩ := tick_foreign standing closing
  obtain ⟨_,member,above⟩ := updateLeader_spec s.ble
  intro leads b present greatest foreign larger
  have top : rank b = rank s.ble.updateLeader.leader :=
    le_antisymm (above b present) ((not_lt_iff_rank ..).mp (greatest _ member))
  have other : s.ble.updateLeader.leader.pid ≠ s.seqPaxos.pid := pid_of_rank top ▸ foreign
  have larger : s.seqPaxos.nLeader < s.ble.updateLeader.leader := by
    rw [lt_iff_rank,←top,←lt_iff_rank]
    exact larger
  rw [←takesOver_iff s.seqPaxos.state (standing.apart other)]
  by_contra stays
  have follows := settles_above standing leads closed.settles stays (standing.promised ▸ larger)
  rw [unheard (follows ▸ other)] at down
  have follower := down (follows ▸ other) (follows ▸ larger)
  exact nomatch leads.symm.trans follower

theorem stepsDown_of_unopposed {s : OmniPaxos T} (standing : Standing s) (closing : Closing s) (unopposed : Unopposed s) :
    StepsDown s.tick := by
  obtain ⟨clock,ble,result,closed,elected,pid,unheard⟩ := tick_foreign standing closing
  obtain ⟨_,member,above⟩ := updateLeader_spec s.ble
  intro foreign larger
  rw [elected,pid] at foreign
  rw [unheard foreign] at larger ⊢
  cases role : s.seqPaxos.role with
  | follower => rfl
  | leader =>
    obtain ⟨stays,follows⟩ := settles_leading standing role closed.settles foreign
    change s.seqPaxos.nLeader < ble.leader at larger
    rw [follows] at larger foreign
    have wins := (takesOver_iff s.seqPaxos.state (standing.apart foreign)).mpr
      (unopposed role _ member (fun b present => (not_lt_iff_rank ..).mpr (above b present)) foreign larger)
    rw [stays] at wins
    cases wins

end Node

theorem stepping_down_iff (config : OmniPaxosConfig) (storage : MemoryStorage T Unit) (clock : ClockState)
    (initial s : OmniPaxos T) (actions : List Act) (built : config.build storage clock = .ok initial)
    (path : Reaches step initial actions s) (closing : Closing s) : StepsDown s.tick ↔ Unopposed s := by
  have standing := path.invariant Standing (fun _ _ _ standing _ => standing_step standing) (standing_build built)
  exact ⟨unopposed_of_stepsDown standing closing,stepsDown_of_unopposed standing closing⟩

-- One node of three, as a server starts it.
def sampleConfig (pid : NodeId) : ServerConfig := {serverId:=pid,nodes:=[1,2,3]}

def sampleNode (pid : NodeId) : OmniPaxos Command := (Server.new (sampleConfig pid) 0).omnipaxos

-- The second node's answer to a heartbeat, from a node that has just started too.
def otherReply (round : Nat) : BLEMessage := ⟨2,1,.reply ⟨round,⟨1,1,0,2⟩,⟨1,1,0,2⟩,true⟩⟩

theorem stepping_down_following : ∃ s, Reaches step (sampleNode 1) [.heartbeat (otherReply 1)] s ∧ Closing s ∧
    s.tick.ble.leader = ⟨1,1,0,2⟩ ∧ StepsDown s.tick := by
  obtain ⟨s,path,closing,other,unopposed⟩ := run_reaches step (fun _ _ => True)
    (fun s => Closing s ∧ s.tick.ble.leader = ⟨1,1,0,2⟩ ∧ Unopposed s) (sampleNode 1) [.heartbeat (otherReply 1)]
    (by decide +kernel)
  have built := build_server (sampleConfig 1) 0 rfl (by decide)
  exact ⟨s,path,closing,other,(stepping_down_iff _ _ _ _ s _ built path closing).mpr unopposed⟩

-- The node leads after its first round; the second round tells it of a larger
-- ballot, and nobody tells its replica.
theorem leads_on : ¬ ∀ (config : OmniPaxosConfig) (storage : MemoryStorage Command Unit) (clock : ClockState)
    (initial s : OmniPaxos Command) (actions : List Act), config.build storage clock = .ok initial →
    Reaches step initial actions s → Closing s → StepsDown s.tick := by
  intro claimed
  obtain ⟨s,path,closing,leads⟩ := run_reaches step (fun _ _ => True) (fun s => Closing s ∧ ¬ StepsDown s.tick)
    (sampleNode 1) [.tick,.heartbeat (otherReply 2)] (by decide +kernel)
  exact leads (claimed _ _ _ _ s _ (build_server (sampleConfig 1) 0 rfl (by decide)) path closing)

section Cluster
variable {n : Nat} {T : Type}

-- Nodes that exchange heartbeats. A message stays with the node that sent it, and
-- is delivered at any later time, any number of times, or never.
inductive ClusterAct (n : Nat) where
  | tick (i : Fin n)
  | deliver (source : Fin n) (place : Nat) (target : Fin n)
  | tryBecomeLeader (i : Fin n)

def clusterStep (c : Fin n → OmniPaxos T) : ClusterAct n → Option (Fin n → OmniPaxos T)
  | .tick i => (step (c i) .tick).map (Function.update c i)
  | .deliver source place target => match (c source).ble.outgoing[place]? with
    | none => none
    | some m =>
      if m.receiver = (c target).ble.pid then (step (c target) (.heartbeat m)).map (Function.update c target) else none
  | .tryBecomeLeader i => (step (c i) .tryBecomeLeader).map (Function.update c i)

-- One node takes a step, with a message some node has sent to it if with one at all.
theorem clusterStep_parts {c next : Fin n → OmniPaxos T} (ran : clusterStep c action = some next) :
    ∃ i act s, step (c i) act = some s ∧ next = Function.update c i s ∧
      ∀ m, act = .heartbeat m → m.receiver = (c i).ble.pid ∧ ∃ source, m ∈ (c source).ble.outgoing := by
  cases action <;> simp only [clusterStep] at ran
  case tick i =>
    obtain ⟨s,moved,rfl⟩ := Option.map_eq_some_iff.mp ran
    exact ⟨i,_,s,moved,rfl,nofun⟩
  case deliver source place target =>
    split at ran
    · cases ran
    · rename_i m sent
      split at ran
      · rename_i receiver
        obtain ⟨s,moved,rfl⟩ := Option.map_eq_some_iff.mp ran
        refine ⟨target,_,s,moved,rfl,?_⟩
        intro m' same
        cases same
        exact ⟨receiver,source,List.mem_of_getElem? sent⟩
      · cases ran
  case tryBecomeLeader i =>
    obtain ⟨s,moved,rfl⟩ := Option.map_eq_some_iff.mp ran
    exact ⟨i,_,s,moved,rfl,nofun⟩

-- A heartbeat names its sender, goes to another node, and carries the sender's ballot.
def Honest (s : BallotLeaderElection) (m : BLEMessage) : Prop :=
  m.sender = s.pid ∧ m.receiver ≠ s.pid ∧ ∀ reply, m.msg = .reply reply → reply.ballot.pid = s.pid

structure Genuine (s : BallotLeaderElection) : Prop where
  peers : ∀ peer ∈ s.peers, peer ≠ s.pid
  sent : ∀ m ∈ s.outgoing, Honest s m
  replies : ∀ r ∈ s.heartbeatReplies, r.ballot.pid ≠ s.pid

theorem genuine_new (config : OmniPaxosConfig) (recovered : Option Ballot) : Genuine (.new config.bleConfig recovered) := by
  have apart : ∀ peer ∈ config.peers, peer ≠ config.serverConfig.pid := by
    intro peer member
    simpa using (List.mem_filter.mp member).2
  refine ⟨apart,?_,?_⟩
  · intro m member
    obtain ⟨peer,present,rfl⟩ := List.mem_map.mp member
    exact ⟨rfl,apart peer present,nofun⟩
  · intro r member
    cases member

theorem genuine_closed {s next : BallotLeaderElection} (genuine : Genuine s) (closed : Closed s state promise result next) :
    Genuine next := by
  refine ⟨?_,?_,?_⟩
  · rw [closed.peers,closed.pid]
    exact genuine.peers
  · intro m member
    rw [closed.outgoing] at member
    unfold Honest
    rw [closed.pid]
    rcases List.mem_append.mp member with old | new
    · exact genuine.sent m old
    · obtain ⟨peer,present,rfl⟩ := List.mem_map.mp new
      exact ⟨rfl,genuine.peers peer present,nofun⟩
  · rw [closed.replies]
    exact nofun

theorem genuine_handle {s sender : BallotLeaderElection} (genuine : Genuine s) (own : s.currentBallot.pid = s.pid)
    (honest : Honest sender m) (receiver : m.receiver = s.pid) : Genuine (s.handle m) := by
  obtain ⟨from_,elsewhere,ballot⟩ := honest
  have apart : sender.pid ≠ s.pid := fun same => elsewhere (receiver.trans same.symm)
  unfold BallotLeaderElection.handle
  split
  · refine ⟨genuine.peers,?_,genuine.replies⟩
    intro m' member
    rcases List.mem_append.mp member with old | new
    · exact genuine.sent m' old
    · cases List.mem_singleton.mp new
      refine ⟨rfl,from_ ▸ apart,?_⟩
      intro reply same
      cases same
      exact own
  · rename_i reply carried
    split
    · refine ⟨genuine.peers,genuine.sent,?_⟩
      intro r member
      rcases List.mem_append.mp member with old | new
      · exact genuine.replies r old
      · cases List.mem_singleton.mp new
        exact ballot reply carried ▸ apart
    · exact genuine

theorem genuine_step {s next : OmniPaxos T} (standing : Standing s)
    (genuine : Genuine s.ble) (honest : ∀ m, action = .heartbeat m → m.receiver = s.ble.pid ∧ ∃ sender, Honest sender m)
    (ran : step s action = some next) : Genuine next.ble := by
  cases action with
  | tick =>
    cases Option.some.inj ran
    by_cases closing : Closing s
    · obtain ⟨clock,ble,result,closed,same⟩ := tick_closing closing
      rw [same]
      exact genuine_closed genuine closed
    · obtain ⟨clock,same⟩ := tick_waiting closing
      rw [same]
      exact genuine
  | heartbeat m =>
    cases Option.some.inj ran
    obtain ⟨receiver,sender,honest⟩ := honest m rfl
    exact genuine_handle genuine standing.own honest receiver
  | tryBecomeLeader => cases Option.some.inj ran; exact genuine

structure Sound (c : Fin n → OmniPaxos T) : Prop where
  standing : ∀ i, Standing (c i)
  genuine : ∀ i, Genuine (c i).ble

theorem sound_step {c next : Fin n → OmniPaxos T} (sound : Sound c) (ran : clusterStep c action = some next) :
    Sound next := by
  obtain ⟨i,act,s,moved,rfl,message⟩ := clusterStep_parts ran
  have standing := standing_step (sound.standing i) moved
  have genuine : Genuine s.ble := by
    refine genuine_step (sound.standing i) (sound.genuine i) ?_ moved
    intro m same
    obtain ⟨receiver,source,sent⟩ := message m same
    exact ⟨receiver,_,(sound.genuine source).sent m sent⟩
  refine ⟨?_,?_⟩
  · intro j
    by_cases same : j = i
    · subst j; rw [Function.update_self]; exact standing
    · rw [Function.update_of_ne same]; exact sound.standing j
  · intro j
    by_cases same : j = i
    · subst j; rw [Function.update_self]; exact genuine
    · rw [Function.update_of_ne same]; exact sound.genuine j

-- A tick that makes a follower the leader closes a round in which enough nodes replied.
def Backed (s : OmniPaxos T) : Prop :=
  s.seqPaxos.role = .follower → s.tick.seqPaxos.role = .leader →
    s.ble.quorum.isPrepareQuorum (s.ble.heartbeatReplies.length+1) = true

instance (s : OmniPaxos T) : Decidable (Backed s) := inferInstanceAs (Decidable (_ → _ → _))

-- The first round of a node that recovered no promise ends with too few replies,
-- and none of them is above the ballot it started with.
def Unheard (s : OmniPaxos T) : Prop :=
  Closing s ∧ s.seqPaxos.role = .follower ∧ s.ble.hbRound = 1 ∧ s.seqPaxos.promise = {} ∧
  s.ble.quorum.isPrepareQuorum (s.ble.heartbeatReplies.length+1) = false ∧
  ∀ r ∈ s.ble.heartbeatReplies, ¬ s.ble.currentBallot < r.ballot

instance (s : OmniPaxos T) : Decidable (Unheard s) := inferInstanceAs (Decidable (_ ∧ _ ∧ _ ∧ _ ∧ _ ∧ _))

-- Replies come from other nodes, so the own ballot is the greatest only if it was the leader's.
theorem own_greatest {s : BallotLeaderElection} (genuine : Genuine s) (own : s.currentBallot.pid = s.pid)
    (top : rank s.updateLeader.leader = rank s.currentBallot) : s.updateLeader.leader = s.leader := by
  rcases List.mem_cons.mp (updateLeader_spec s).2.1 with same | reply
  · exact same
  · obtain ⟨r,member,same⟩ := List.mem_map.mp reply
    have foreign := genuine.replies r member
    rw [same,pid_of_rank top] at foreign
    exact absurd own foreign

theorem takesOver_few {s : BallotLeaderElection} (few : s.quorum.isPrepareQuorum (s.heartbeatReplies.length+1) = false) :
    takesOver s state = false := by
  unfold takesOver
  rw [few,Bool.and_false]

-- A follower begins to lead when the round leaves it as its own leader, above
-- what it promised.
theorem tick_leads {s : OmniPaxos T} (standing : Standing s) (closing : Closing s) (follows : s.seqPaxos.role = .follower) :
    ∃ ble result, Closed s.ble s.seqPaxos.state s.seqPaxos.promise result ble ∧ (s.tick.seqPaxos.role = .leader ↔
      ble.leader = ble.currentBallot ∧ s.seqPaxos.promise < ble.currentBallot) := by
  obtain ⟨clock,ble,result,closed,same⟩ := tick_closing closing
  have mine : s.seqPaxos.pid = ble.currentBallot.pid := standing.pid.symm.trans (closed.settles.own standing.own).symm
  have role := (handleLeader_own mine standing.promised).2.2.2
  refine ⟨ble,result,closed,?_⟩
  rw [same]
  change (if _ then _ else _ : SequencePaxos T).role = _ ↔ _
  by_cases led : ble.leader = ble.currentBallot
  · rw [if_pos led,role]
    by_cases more : s.seqPaxos.promise < ble.currentBallot
    · simp [led,more]
    · simp [more,follows]
  · rw [if_neg led]
    simp [led,follows]

-- Without a quorum of replies, a follower begins to lead exactly when its own
-- ballot is the greatest it knows and was not promised.
theorem begins_iff {s : OmniPaxos T} (standing : Standing s) (closing : Closing s) (follows : s.seqPaxos.role = .follower)
    (few : takesOver s.ble s.seqPaxos.state = false) : s.tick.seqPaxos.role = .leader ↔
      s.ble.updateLeader.leader = s.ble.currentBallot ∧ s.seqPaxos.promise < s.ble.currentBallot := by
  obtain ⟨ble,result,closed,leads⟩ := tick_leads standing closing follows
  rw [leads]
  have settles := closed.settles
  generalize ble.leader = leader,ble.currentBallot = current at settles
  have irreflexive : ∀ b : Ballot, ¬ b < b := fun b => (not_lt_iff_rank b b).mpr (le_refl _)
  cases settles with
  | takeover wins => rw [few] at wins; cases wins
  | follow => rfl
  | promised behind own =>
    rcases behind with wins | less
    · rw [few] at wins; cases wins
    · refine ⟨fun held => absurd held.2 (irreflexive _),?_⟩
      intro held
      rw [held.1,lt_iff_rank] at less
      exact absurd ((lt_iff_rank ..).mp held.2) (lt_asymm less)
  | told behind other equal =>
    rcases behind with wins | less
    · rw [few] at wins; cases wins
    · constructor
      · intro held
        rw [←held.1] at held
        exact absurd held.2 (irreflexive _)
      · intro held
        rw [held.1,lt_iff_rank] at less
        exact absurd ((lt_iff_rank ..).mp held.2) (lt_asymm less)

theorem backed_iff {s : OmniPaxos T} (standing : Standing s) (genuine : Genuine s.ble) : Backed s ↔ ¬ Unheard s := by
  constructor
  · intro backed unheard
    obtain ⟨closing,follows,first,fresh,few,low⟩ := unheard
    obtain ⟨led,initial⟩ := standing.opening first fresh
    obtain ⟨_,member,above⟩ := updateLeader_spec s.ble
    have bounded : rank s.ble.updateLeader.leader ≤ rank s.ble.currentBallot := by
      rcases List.mem_cons.mp member with same | reply
      · rw [same,led]
      · obtain ⟨r,present,same⟩ := List.mem_map.mp reply
        rw [←same]
        exact (not_lt_iff_rank ..).mp (low r present)
    have top := le_antisymm bounded (led ▸ above s.ble.leader List.mem_cons_self)
    have more : s.seqPaxos.promise < s.ble.currentBallot := by
      rw [fresh,lt_iff_rank]
      refine Prod.Lex.toLex_lt_toLex.mpr (.inl ?_)
      rw [initial]
      exact Nat.one_pos
    have begins := (begins_iff standing closing follows (takesOver_few few)).mpr
      ⟨(own_greatest genuine standing.own top).trans led,more⟩
    rw [backed follows begins] at few
    cases few
  · intro heard follows becomes
    by_contra few
    rw [Bool.not_eq_true] at few
    apply heard
    have closing : Closing s := by
      by_contra waiting
      obtain ⟨clock,same⟩ := tick_waiting waiting
      rw [same] at becomes
      exact nomatch follows.symm.trans becomes
    obtain ⟨greatest,more⟩ := (begins_iff standing closing follows (takesOver_few few)).mp becomes
    have led := (own_greatest genuine standing.own (congrArg rank greatest)).symm.trans greatest
    obtain ⟨first,fresh⟩ := (standing.settled led).resolve_right fun above => above more
    refine ⟨closing,follows,first,fresh,few,?_⟩
    intro r member
    rw [not_lt_iff_rank,←greatest]
    exact (updateLeader_spec s.ble).2.2 _ (List.mem_cons_of_mem _ (List.mem_map_of_mem member))

end Cluster

theorem leadership_backed_iff {n : Nat} (configs : Fin n → OmniPaxosConfig) (storages : Fin n → MemoryStorage T Unit)
    (clocks : Fin n → ClockState) (initial c : Fin n → OmniPaxos T) (actions : List (ClusterAct n))
    (built : ∀ i, (configs i).build (storages i) (clocks i) = .ok (initial i))
    (path : Reaches clusterStep initial actions c) (i : Fin n) : Backed (c i) ↔ ¬ Unheard (c i) := by
  have start : Sound initial := by
    refine ⟨fun i => standing_build (built i),?_⟩
    intro i
    rw [(build_parts (built i)).1]
    exact genuine_new ..
  have sound := path.invariant Sound (fun _ _ _ sound _ => sound_step sound) start
  exact backed_iff (sound.standing i) (sound.genuine i)

def sampleNodes (i : Fin 3) : OmniPaxos Command := sampleNode (i.val+1)

theorem sampleNodes_built (i : Fin 3) : (sampleConfig (i.val+1)).omniPaxosConfig.build {}
    (sampleNodes i).seqPaxos.queue.clock = .ok (sampleNodes i) := by
  have valid : ∀ i : Fin 3, (sampleConfig (i.val+1)).omniPaxosConfig.validate = .ok () ∧
      (sampleConfig (i.val+1)).omniPaxosConfig.peers ≠ [] := by decide
  exact build_server _ 0 (valid i).1 (valid i).2

-- The last node has one answer when its first round ends, which makes two of three.
theorem leadership_backed_answered : ∃ c : Fin 3 → OmniPaxos Command,
    Reaches clusterStep sampleNodes [.deliver 2 0 0,.deliver 0 2 2] c ∧ (c 2).seqPaxos.role = .follower ∧
    (c 2).tick.seqPaxos.role = .leader ∧ Backed (c 2) := by
  obtain ⟨c,path,follows,becomes,heard⟩ := run_reaches clusterStep (fun _ _ => True)
    (fun c => (c 2).seqPaxos.role = .follower ∧ (c 2).tick.seqPaxos.role = .leader ∧ ¬ Unheard (c 2))
    sampleNodes [.deliver 2 0 0,.deliver 0 2 2] (by decide +kernel)
  exact ⟨c,path,follows,becomes,(leadership_backed_iff _ _ _ _ c _ sampleNodes_built path 2).mpr heard⟩

-- The first tick of a fresh node makes it the leader, whether anyone answers or not.
theorem leadership_unbacked : ¬ ∀ (n : Nat) (configs : Fin n → OmniPaxosConfig)
    (storages : Fin n → MemoryStorage Command Unit) (clocks : Fin n → ClockState) (initial c : Fin n → OmniPaxos Command)
    (actions : List (ClusterAct n)), (∀ i, (configs i).build (storages i) (clocks i) = .ok (initial i)) →
    Reaches clusterStep initial actions c → ∀ i, Backed (c i) := by
  intro claimed
  have backed := claimed 3 _ _ _ _ sampleNodes [] sampleNodes_built .nil 0
  exact absurd backed (by decide +kernel)

end OmniPaxosKV.Leadership

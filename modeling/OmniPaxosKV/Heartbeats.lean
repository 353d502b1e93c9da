import Mathlib.Data.Finset.Card
import Mathlib.Data.Fintype.Lattice
import OmniPaxosKV.Ballots

-- What the heartbeats of a cluster left to itself carry: how old the ballots and
-- leaders in them can be, and what the nodes that count them make of them.
namespace OmniPaxosKV.Heartbeats
open Machine
open Ballots (Electorate Elector step)
open Leadership (rank lt_iff_rank le_iff_rank not_lt_iff_rank updateLeader_spec known raised takesOver)

variable {n : Nat}

abbrev node (c : Electorate n) (i : Fin n) : BallotLeaderElection := (c.nodes i).ble

-- No priority is changed, and a promise above the leader that a node knows is a
-- ballot that some node of the cluster has had.
def Undisturbed (c : Electorate n) : Ballots.Act n → Prop
  | .timeout i _ promise => (node c i).leader < promise → ∃ k, promise.pid = (node c k).currentBallot.pid ∧
      promise.configId = (node c k).currentBallot.configId ∧ promise ≤ (node c k).currentBallot
  | .deliver .. => True
  | .setPriority .. => False

-- A node that closes a round has a reply from every other node.
def Complete (c : Electorate n) : Ballots.Act n → Prop
  | .timeout i _ _ => ∀ j, j ≠ i → ∃ reply ∈ (node c i).heartbeatReplies, reply.ballot.pid = (node c j).pid
  | .deliver .. => True
  | .setPriority .. => True

instance undisturbedDecidable (c : Electorate n) (action : Ballots.Act n) : Decidable (Undisturbed c action) :=
  match action with
  | .timeout .. => inferInstanceAs (Decidable (_ → ∃ _, _ ∧ _ ∧ _))
  | .deliver .. => inferInstanceAs (Decidable True)
  | .setPriority .. => inferInstanceAs (Decidable False)

instance completeDecidable (c : Electorate n) (action : Ballots.Act n) : Decidable (Complete c action) :=
  match action with
  | .timeout .. => inferInstanceAs (Decidable (∀ _, _ → ∃ _ ∈ _, _))
  | .deliver .. => inferInstanceAs (Decidable True)
  | .setPriority .. => inferInstanceAs (Decidable True)

section Closing
variable (s : BallotLeaderElection) (state : Role × Phase) (promise : Ballot)

-- The leader of a round that closes, before the promise is looked at.
def elected : Ballot := if takesOver s state then raised s else s.updateLeader.leader

-- All that closing a round does when a promise above its leader is another node's.
structure Renewed (next : BallotLeaderElection) : Prop where
  pid : next.pid = s.pid
  quorum : next.quorum = s.quorum
  round : next.hbRound = s.hbRound+1
  replies : next.heartbeatReplies = []
  outgoing : next.outgoing = s.outgoing++s.peers.map fun peer => ⟨s.pid,peer,.request (s.hbRound+1)⟩
  current : next.currentBallot = if takesOver s state then raised s else s.currentBallot
  outcome : (elected s state < promise ∧ next.leader = promise ∧ next.happy = true) ∨
    (¬ elected s state < promise ∧ next.leader = elected s state ∧
      next.happy = (takesOver s state || (s.updateLeader.updateHappiness state).happy))

theorem timeout_renewed (foreign : elected s state < promise → promise.pid ≠ s.pid) :
    Renewed s state promise (s.hbTimeout state promise).2 := by
  have update := (updateLeader_spec s).1
  generalize seen : s.updateLeader.updateHappiness state = u
  have parts : u = {s with leader:=s.updateLeader.leader,happy:=u.happy} := by
    rw [←seen]
    unfold BallotLeaderElection.updateHappiness
    rw [update]
  have wins : (!u.happy && (u.heartbeatReplies.all fun r => !r.happy) &&
      u.quorum.isPrepareQuorum (u.heartbeatReplies.length+1)) = takesOver s state := by
    unfold takesOver
    rw [seen,parts]
  have taken : u.checkTakeover = {s with
      leader:=elected s state
      currentBallot:=if takesOver s state then raised s else s.currentBallot
      happy:=takesOver s state || u.happy} := by
    unfold BallotLeaderElection.checkTakeover elected
    rw [wins]
    cases takesOver s state with
    | true =>
      have ballot : {u.currentBallot with n:=u.leader.n+1} = raised s := by rw [parts]; rfl
      simp only [if_true,ballot,Bool.true_or]
      rw [parts]
    | false =>
      simp only [Bool.false_eq_true,if_false,Bool.false_or]
      exact parts
  have result : (s.hbTimeout state promise).2 = u.checkTakeover.newHbRound.adoptPromise promise := by
    rw [←seen]
    rfl
  generalize current : (if takesOver s state then raised s else s.currentBallot) = own at taken
  rw [result,taken,BallotLeaderElection.adoptPromise,←seen]
  split
  · rename_i behind
    have other : promise.pid ≠ s.pid := foreign behind
    exact ⟨rfl,rfl,rfl,rfl,rfl,(if_neg other).trans current.symm,.inl ⟨behind,rfl,rfl⟩⟩
  · rename_i known
    exact ⟨rfl,rfl,rfl,rfl,rfl,current.symm,.inr ⟨known,rfl,rfl⟩⟩

theorem update_above : rank s.leader ≤ rank s.updateLeader.leader :=
  (updateLeader_spec s).2.2 _ List.mem_cons_self

theorem raised_above : rank s.updateLeader.leader < rank (raised s) :=
  Prod.Lex.toLex_lt_toLex.mpr (.inl (Nat.lt_succ_self _))

theorem elected_above : rank s.updateLeader.leader ≤ rank (elected s state) := by
  unfold elected
  split
  · exact le_of_lt (raised_above s)
  · exact le_rfl

variable {s state promise} {next : BallotLeaderElection}

theorem Renewed.leader_above (renewed : Renewed s state promise next) : rank s.updateLeader.leader ≤ rank next.leader := by
  have more := elected_above s state
  rcases renewed.outcome with ⟨behind,leader,_⟩ | ⟨_,leader,_⟩ <;> rw [leader]
  · exact le_trans more (le_of_lt ((lt_iff_rank ..).mp behind))
  · exact more

theorem Renewed.current_above (renewed : Renewed s state promise next) (below : rank s.currentBallot ≤ rank s.leader) :
    rank s.currentBallot ≤ rank next.currentBallot ∧ rank next.currentBallot ≤ rank next.leader := by
  have heard := le_trans below (update_above s)
  have risen := renewed.leader_above
  rw [renewed.current]
  split
  · rename_i wins
    refine ⟨le_trans heard (le_of_lt (raised_above s)),?_⟩
    have same : elected s state = raised s := if_pos wins
    rcases renewed.outcome with ⟨behind,leader,_⟩ | ⟨_,leader,_⟩ <;> rw [leader,←same]
    exact le_of_lt ((lt_iff_rank ..).mp behind)
  · exact ⟨le_rfl,le_trans heard risen⟩

end Closing

-- A node's part in a step: what it becomes, while the others stay as they are.
structure Becomes (c next : Electorate n) (i : Fin n) (s : BallotLeaderElection) : Prop where
  here : node next i = s
  others : ∀ j, j ≠ i → node next j = node c j

-- What held of every node and holds of what one of them becomes holds of every node.
theorem Becomes.each {c next : Electorate n} {P : Fin n → BallotLeaderElection → Prop} (becomes : Becomes c next i s)
    (here : P i s) (before : ∀ j, P j (node c j)) (j : Fin n) : P j (node next j) := by
  rcases eq_or_ne j i with rfl | other
  · rw [becomes.here]
    exact here
  · rw [becomes.others j other]
    exact before j

theorem step_cases {c next : Electorate n} (ran : step c action = some next) (quiet : Undisturbed c action) :
    (∃ i state promise, action = .timeout i state promise ∧ Becomes c next i ((node c i).hbTimeout state promise).2) ∨
    (∃ source place target, action = .deliver source place target ∧ ∃ m ∈ (node c source).outgoing,
      m.receiver = (node c target).pid ∧ Becomes c next target ((node c target).handle m)) := by
  cases action with
  | timeout i state promise =>
    cases Option.some.inj ran
    refine .inl ⟨i,state,promise,rfl,?_,?_⟩
    · simp only [node,Function.update_self]
      rfl
    · intro j other
      simp only [node,Function.update_of_ne other]
  | deliver source place target =>
    simp only [step] at ran
    split at ran
    · cases ran
    · rename_i m sent
      split at ran
      · rename_i receiver
        cases Option.some.inj ran
        refine .inr ⟨source,place,target,rfl,m,List.mem_of_getElem? sent,receiver,?_,?_⟩
        · simp only [node,Function.update_self]
        · intro j other
          simp only [node,Function.update_of_ne other]
      · cases ran
  | setPriority i priority => exact absurd quiet not_false

section Sound
variable (pids : Fin n → NodeId) (config : Nat)

-- A ballot that a node of the cluster has, or had once.
def Held (c : Electorate n) (b : Ballot) : Prop :=
  ∃ k, b.pid = pids k ∧ b.configId = config ∧ rank b ≤ rank (node c k).currentBallot

-- What a reply says of the node that sent it.
structure Says (c : Electorate n) (j : Fin n) (reply : HeartbeatReply) : Prop where
  pid : reply.ballot.pid = pids j
  config : reply.ballot.configId = config
  below : rank reply.ballot ≤ rank reply.leader
  ballot : rank reply.ballot ≤ rank (node c j).currentBallot
  leader : rank reply.leader ≤ rank (node c j).leader

-- What holds of a cluster that started fresh and was left to itself since: no node
-- is ahead of its leader, no leader is ahead of the node it is a ballot of, and the
-- replies of the current rounds came after the leaders of these rounds.
structure Sound (c : Electorate n) : Prop where
  distinct : Function.Injective pids
  pid : ∀ i, (node c i).pid = pids i
  own : ∀ i, (node c i).currentBallot.pid = pids i ∧ (node c i).currentBallot.configId = config
  quorum : ∀ i, (node c i).quorum.isPrepareQuorum n = true ∧ (node c i).quorum.isAcceptQuorum n = true
  below : ∀ i, rank (node c i).currentBallot ≤ rank (node c i).leader
  held : ∀ i, Held pids config c (node c i).leader
  requests : ∀ j, ∀ m ∈ (node c j).outgoing, ∀ round, m.msg = .request round →
    m.sender = pids j ∧ round ≤ (node c j).hbRound
  replies : ∀ j, ∀ m ∈ (node c j).outgoing, ∀ reply, m.msg = .reply reply → Says pids config c j reply
  recent : ∀ j, ∀ m ∈ (node c j).outgoing, ∀ reply, m.msg = .reply reply → ∀ i, m.receiver = pids i →
    reply.round ≤ (node c i).hbRound ∧
    (reply.round = (node c i).hbRound → (node c i).leader.pid = pids j → rank (node c i).leader ≤ rank reply.ballot)
  stored : ∀ i, ∀ reply ∈ (node c i).heartbeatReplies, reply.round = (node c i).hbRound ∧
    ∃ j, ∃ m ∈ (node c j).outgoing, m.receiver = pids i ∧ m.msg = .reply reply

variable {pids config} {c next : Electorate n} {i : Fin n} {s : BallotLeaderElection}

-- Leaders and own ballots only rise.
structure Later (c next : Electorate n) : Prop where
  leader : ∀ i, rank (node c i).leader ≤ rank (node next i).leader
  ballot : ∀ i, rank (node c i).currentBallot ≤ rank (node next i).currentBallot

theorem Held.later {b : Ballot} (held : Held pids config c b) (later : Later c next) : Held pids config next b := by
  obtain ⟨k,pid,same,below⟩ := held
  exact ⟨k,pid,same,le_trans below (later.ballot k)⟩

theorem Says.later {reply : HeartbeatReply} (told : Says pids config c j reply) (later : Later c next) :
    Says pids config next j reply :=
  ⟨told.pid,told.config,told.below,le_trans told.ballot (later.ballot j),le_trans told.leader (later.leader j)⟩

theorem Sound.heard {reply : HeartbeatReply} (sound : Sound pids config c) (member : reply ∈ (node c i).heartbeatReplies) :
    ∃ j, Says pids config c j reply := by
  obtain ⟨_,j,m,sent,_,answers⟩ := sound.stored i reply member
  exact ⟨j,sound.replies j m sent reply answers⟩

theorem Sound.known_held {b : Ballot} (sound : Sound pids config c) (member : b ∈ known (node c i)) : Held pids config c b := by
  rcases List.mem_cons.mp member with rfl | answered
  · exact sound.held i
  · obtain ⟨reply,stored,rfl⟩ := List.mem_map.mp answered
    obtain ⟨j,told⟩ := sound.heard stored
    exact ⟨j,told.pid,told.config,told.ballot⟩

-- The leader that a node hears of, before it takes over or looks at its promise.
theorem Sound.update_held (sound : Sound pids config c) (i : Fin n) : Held pids config c (node c i).updateLeader.leader :=
  sound.known_held (updateLeader_spec (node c i)).2.1

-- A promise that a node adopts is another node's ballot.
theorem Sound.promised (sound : Sound pids config c) (quiet : Undisturbed c (.timeout i state promise))
    (behind : elected (node c i) state < promise) : Held pids config c promise ∧ promise.pid ≠ (node c i).pid := by
  have risen := le_trans (update_above (node c i)) (elected_above (node c i) state)
  have more := (lt_iff_rank ..).mp behind
  obtain ⟨k,pid,sameConfig,below⟩ := quiet ((lt_iff_rank ..).mpr (lt_of_le_of_lt risen more))
  have under := (le_iff_rank ..).mp below
  refine ⟨⟨k,pid.trans (sound.own k).1,sameConfig.trans (sound.own k).2,under⟩,?_⟩
  intro own
  have same : pids k = pids i := ((sound.own k).1.symm.trans pid.symm).trans (own.trans (sound.pid i))
  rw [sound.distinct same] at under
  exact absurd (lt_of_le_of_lt (le_trans (sound.below i) risen) more) (not_lt.mpr under)

theorem Sound.renewed (sound : Sound pids config c) (quiet : Undisturbed c (.timeout i state promise)) :
    Renewed (node c i) state promise ((node c i).hbTimeout state promise).2 :=
  timeout_renewed (node c i) state promise fun behind => (sound.promised quiet behind).2

theorem later_timeout (sound : Sound pids config c) (becomes : Becomes c next i s)
    (renewed : Renewed (node c i) state promise s) : Later c next where
  leader := becomes.each (P:=fun j s => rank (node c j).leader ≤ rank s.leader)
    (le_trans (update_above _) renewed.leader_above) fun _ => le_rfl
  ballot := becomes.each (P:=fun j s => rank (node c j).currentBallot ≤ rank s.currentBallot)
    (renewed.current_above (sound.below i)).1 fun _ => le_rfl

-- The only new messages are the requests of the new round.
theorem timeout_sent (sound : Sound pids config c) (becomes : Becomes c next i s) (renewed : Renewed (node c i) state promise s)
    (j : Fin n) : ∀ m ∈ (node next j).outgoing, m ∈ (node c j).outgoing ∨
      j = i ∧ m.sender = pids i ∧ m.msg = .request ((node c i).hbRound+1) := by
  intro m member
  rcases eq_or_ne j i with rfl | other
  · rw [becomes.here,renewed.outgoing] at member
    rcases List.mem_append.mp member with old | new
    · exact .inl old
    · obtain ⟨peer,_,rfl⟩ := List.mem_map.mp new
      exact .inr ⟨rfl,sound.pid j,rfl⟩
  · rw [becomes.others j other] at member
    exact .inl member

theorem timeout_replies (sound : Sound pids config c) (becomes : Becomes c next i s) (renewed : Renewed (node c i) state promise s)
    (j : Fin n) (m : BLEMessage) (member : m ∈ (node next j).outgoing) (reply : HeartbeatReply) (answers : m.msg = .reply reply) :
    m ∈ (node c j).outgoing := by
  rcases timeout_sent sound becomes renewed j m member with old | ⟨_,_,asks⟩
  · exact old
  · cases asks.symm.trans answers

theorem timeout_outgoing (becomes : Becomes c next i s) (renewed : Renewed (node c i) state promise s) (j : Fin n) :
    ∀ m ∈ (node c j).outgoing, m ∈ (node next j).outgoing := by
  intro m member
  rcases eq_or_ne j i with rfl | other
  · rw [becomes.here,renewed.outgoing]
    exact List.mem_append_left _ member
  · rw [becomes.others j other]
    exact member

theorem timeout_own (sound : Sound pids config c) (renewed : Renewed (node c i) state promise s) :
    s.currentBallot.pid = pids i ∧ s.currentBallot.configId = config := by
  rw [renewed.current]
  split <;> exact sound.own i

-- The leader of the new round is a promise, the node's own ballot or a leader heard of.
theorem timeout_held (sound : Sound pids config c) (quiet : Undisturbed c (.timeout i state promise))
    (becomes : Becomes c next i s) (renewed : Renewed (node c i) state promise s) : Held pids config next s.leader := by
  have later := later_timeout sound becomes renewed
  rcases renewed.outcome with ⟨behind,leader,_⟩ | ⟨_,leader,_⟩ <;> rw [leader]
  · exact (sound.promised quiet behind).1.later later
  · have current := renewed.current
    obtain ⟨pid,same⟩ := timeout_own sound renewed
    unfold elected
    split at current
    · rename_i wins
      rw [if_pos wins,←current]
      exact ⟨i,pid,same,by rw [becomes.here]⟩
    · rename_i stays
      rw [if_neg stays]
      exact (sound.update_held i).later later

theorem sound_timeout (sound : Sound pids config c) (quiet : Undisturbed c (.timeout i state promise))
    (becomes : Becomes c next i s) (renewed : Renewed (node c i) state promise s) : Sound pids config next := by
  have later := later_timeout sound becomes renewed
  have sent := timeout_sent sound becomes renewed
  have answered := timeout_replies sound becomes renewed
  refine ⟨sound.distinct,?_,?_,?_,?_,?_,?_,?_,?_,?_⟩
  · exact becomes.each (P:=fun j s => s.pid = pids j) (renewed.pid.trans (sound.pid i)) sound.pid
  · exact becomes.each (P:=fun j s => s.currentBallot.pid = pids j ∧ s.currentBallot.configId = config)
      (timeout_own sound renewed) sound.own
  · refine becomes.each (P:=fun _ s => s.quorum.isPrepareQuorum n = true ∧ s.quorum.isAcceptQuorum n = true) ?_ sound.quorum
    rw [renewed.quorum]
    exact sound.quorum i
  · exact becomes.each (P:=fun _ s => rank s.currentBallot ≤ rank s.leader) (renewed.current_above (sound.below i)).2 sound.below
  · exact becomes.each (P:=fun _ s => Held pids config next s.leader) (timeout_held sound quiet becomes renewed)
      fun j => (sound.held j).later later
  · intro j m member round asks
    rcases sent j m member with old | ⟨rfl,sender,new⟩
    · obtain ⟨sender,bound⟩ := sound.requests j m old round asks
      refine ⟨sender,Nat.le_trans bound ?_⟩
      refine becomes.each (P:=fun j s => (node c j).hbRound ≤ s.hbRound) ?_ (fun _ => Nat.le_refl _) j
      rw [renewed.round]
      exact Nat.le_succ _
    · cases new.symm.trans asks
      rw [becomes.here,renewed.round]
      exact ⟨sender,Nat.le_refl _⟩
  · intro j m member reply answers
    exact (sound.replies j m (answered j m member reply answers) reply answers).later later
  · intro j m member reply answers k receiver
    obtain ⟨bound,recent⟩ := sound.recent j m (answered j m member reply answers) reply answers k receiver
    rcases eq_or_ne k i with rfl | other
    · rw [becomes.here,renewed.round]
      exact ⟨Nat.le_succ_of_le bound,fun same => absurd same (by omega)⟩
    · rw [becomes.others k other]
      exact ⟨bound,recent⟩
  · intro j reply member
    rcases eq_or_ne j i with rfl | other
    · rw [becomes.here,renewed.replies] at member
      cases member
    · rw [becomes.others j other] at member ⊢
      obtain ⟨round,k,m,present,rest⟩ := sound.stored j reply member
      exact ⟨round,k,m,timeout_outgoing becomes renewed k m present,rest⟩

-- A heartbeat that arrives leaves every node but for its messages as it was.
structure Unmoved (c next : Electorate n) (i : Fin n) : Prop where
  pid : (node next i).pid = (node c i).pid
  quorum : (node next i).quorum = (node c i).quorum
  round : (node next i).hbRound = (node c i).hbRound
  leader : (node next i).leader = (node c i).leader
  ballot : (node next i).currentBallot = (node c i).currentBallot
  happy : (node next i).happy = (node c i).happy

theorem unmoved_deliver (becomes : Becomes c next i ((node c i).handle m)) (j : Fin n) : Unmoved c next j := by
  rcases eq_or_ne j i with rfl | other
  · obtain ⟨replies,outgoing,same⟩ := Leadership.handle_parts (node c j) m
    have here := becomes.here.trans same
    constructor <;> rw [here]
  · constructor <;> rw [becomes.others j other]

theorem later_unmoved (unmoved : ∀ j, Unmoved c next j) : Later c next :=
  ⟨fun j => by rw [(unmoved j).leader],fun j => by rw [(unmoved j).ballot]⟩

-- What a heartbeat adds at the node it arrives at.
theorem handle_outgoing (s : BallotLeaderElection) (m : BLEMessage) : (∃ round, m.msg = .request round ∧
      (s.handle m).outgoing = s.outgoing++[⟨s.pid,m.sender,.reply ⟨round,s.currentBallot,s.leader,s.happy⟩⟩] ∧
      (s.handle m).heartbeatReplies = s.heartbeatReplies) ∨
    ((s.handle m).outgoing = s.outgoing ∧ ((s.handle m).heartbeatReplies = s.heartbeatReplies ∨
      ∃ reply, m.msg = .reply reply ∧ reply.round = s.hbRound ∧ (s.handle m).heartbeatReplies = s.heartbeatReplies++[reply])) := by
  unfold BallotLeaderElection.handle
  split
  · rename_i round asks
    exact .inl ⟨round,asks,rfl,rfl⟩
  · rename_i reply answers
    split
    · rename_i current
      exact .inr ⟨rfl,.inr ⟨reply,answers,current.1,rfl⟩⟩
    · exact .inr ⟨rfl,.inl rfl⟩

-- A message that is in some node's log after the step was there before, or is the
-- answer to a request that was.
theorem deliver_sent (becomes : Becomes c next i ((node c i).handle m)) (j : Fin n) :
    ∀ other ∈ (node next j).outgoing, other ∈ (node c j).outgoing ∨
      j = i ∧ ∃ round, m.msg = .request round ∧ other = ⟨(node c i).pid,m.sender,
        .reply ⟨round,(node c i).currentBallot,(node c i).leader,(node c i).happy⟩⟩ := by
  intro other member
  rcases eq_or_ne j i with rfl | apart
  · rw [becomes.here] at member
    rcases handle_outgoing (node c j) m with ⟨round,asks,outgoing,_⟩ | ⟨outgoing,_⟩ <;> rw [outgoing] at member
    · rcases List.mem_append.mp member with old | new
      · exact .inl old
      · exact .inr ⟨rfl,round,asks,List.mem_singleton.mp new⟩
    · exact .inl member
  · rw [becomes.others j apart] at member
    exact .inl member

theorem deliver_outgoing (becomes : Becomes c next i ((node c i).handle m)) (j : Fin n) :
    ∀ other ∈ (node c j).outgoing, other ∈ (node next j).outgoing := by
  intro other member
  rcases eq_or_ne j i with rfl | apart
  · rw [becomes.here]
    rcases handle_outgoing (node c j) m with ⟨_,_,outgoing,_⟩ | ⟨outgoing,_⟩ <;> rw [outgoing]
    · exact List.mem_append_left _ member
    · exact member
  · rw [becomes.others j apart]
    exact member

theorem sound_deliver (sound : Sound pids config c)
    (sent : m ∈ (node c source).outgoing) (receiver : m.receiver = (node c i).pid)
    (becomes : Becomes c next i ((node c i).handle m)) : Sound pids config next := by
  have unmoved := unmoved_deliver becomes
  have later := later_unmoved unmoved
  refine ⟨sound.distinct,?_,?_,?_,?_,?_,?_,?_,?_,?_⟩
  · intro j
    rw [(unmoved j).pid]
    exact sound.pid j
  · intro j
    rw [(unmoved j).ballot]
    exact sound.own j
  · intro j
    rw [(unmoved j).quorum]
    exact sound.quorum j
  · intro j
    rw [(unmoved j).ballot,(unmoved j).leader]
    exact sound.below j
  · intro j
    rw [(unmoved j).leader]
    exact (sound.held j).later later
  · intro j other member round asks
    rw [(unmoved j).round]
    rcases deliver_sent becomes j other member with old | ⟨_,_,_,rfl⟩
    · exact sound.requests j other old round asks
    · cases asks
  · intro j other member reply answers
    rcases deliver_sent becomes j other member with old | ⟨rfl,_,_,rfl⟩
    · exact (sound.replies j other old reply answers).later later
    · cases answers
      refine ⟨(sound.own j).1,(sound.own j).2,sound.below j,?_,?_⟩
      · rw [(unmoved j).ballot]
      · rw [(unmoved j).leader]
  · intro j other member reply answers k addressed
    rw [(unmoved k).round,(unmoved k).leader]
    rcases deliver_sent becomes j other member with old | ⟨rfl,round,asks,rfl⟩
    · exact sound.recent j other old reply answers k addressed
    · -- The request came from the node that the answer goes to.
      cases answers
      obtain ⟨sender,bound⟩ := sound.requests source m sent round asks
      cases sound.distinct (sender.symm.trans addressed)
      refine ⟨bound,fun _ led => ?_⟩
      obtain ⟨holder,pid,_,below⟩ := sound.held source
      cases sound.distinct (pid.symm.trans led)
      exact below
  · intro j reply member
    rw [(unmoved j).round]
    have kept : ∀ reply ∈ (node c j).heartbeatReplies, reply.round = (node c j).hbRound ∧
        ∃ k, ∃ m ∈ (node next k).outgoing, m.receiver = pids j ∧ m.msg = .reply reply := by
      intro reply member
      obtain ⟨round,k,m,present,rest⟩ := sound.stored j reply member
      exact ⟨round,k,m,deliver_outgoing becomes k m present,rest⟩
    rcases eq_or_ne j i with rfl | other
    · rw [becomes.here] at member
      rcases handle_outgoing (node c j) m with ⟨_,_,_,replies⟩ | ⟨_,replies | ⟨new,answers,round,replies⟩⟩ <;>
        rw [replies] at member
      · exact kept reply member
      · exact kept reply member
      · rcases List.mem_append.mp member with old | last
        · exact kept reply old
        · cases List.mem_singleton.mp last
          refine ⟨round,source,m,deliver_outgoing becomes source m sent,?_,answers⟩
          rw [receiver,sound.pid j]
    · rw [becomes.others j other] at member
      exact kept reply member

theorem sound_step (sound : Sound pids config c) (quiet : Undisturbed c action)
    (ran : step c action = some next) : Sound pids config next ∧ Later c next := by
  rcases step_cases ran quiet with ⟨i,state,promise,rfl,becomes⟩ | ⟨_,_,_,rfl,m,sent,receiver,becomes⟩
  · have renewed := sound.renewed quiet
    exact ⟨sound_timeout sound quiet becomes renewed,later_timeout sound becomes renewed⟩
  · exact ⟨sound_deliver sound sent receiver becomes,later_unmoved (unmoved_deliver becomes)⟩

-- A ballot of the cluster is told by its rank, as all are of one configuration.
theorem eq_of_rank {a b : Ballot} (sameConfig : a.configId = b.configId) (same : rank a = rank b) : a = b := by
  simp only [rank,EmbeddingLike.apply_eq_iff_eq,Prod.mk.injEq] at same
  rcases a with ⟨_,_,_,_⟩
  rcases b with ⟨_,_,_,_⟩
  obtain ⟨rfl,rfl,rfl⟩ := same
  cases sameConfig
  rfl

-- Once the round closes with an answer from each of the others.
def Answered (pids : Fin n → NodeId) (c : Electorate n) (i : Fin n) : Prop :=
  ∀ j, j ≠ i → ∃ reply ∈ (node c i).heartbeatReplies, reply.ballot.pid = pids j

theorem answered_complete (sound : Sound pids config c) (complete : Complete c (.timeout i state promise)) :
    Answered pids c i := by
  intro j other
  obtain ⟨reply,member,pid⟩ := complete j other
  exact ⟨reply,member,pid.trans (sound.pid j)⟩

theorem members_count (distinct : Function.Injective pids) {members : Finset (Fin n)}
    (heard : ∀ j ∈ members, j ≠ i → ∃ reply ∈ (node c i).heartbeatReplies, reply.ballot.pid = pids j) :
    members.card ≤ (node c i).heartbeatReplies.length+1 := by
  have mapped : ∀ j ∈ members.erase i, pids j ∈ ((node c i).heartbeatReplies.map (·.ballot.pid)).toFinset := by
    intro j member
    obtain ⟨reply,stored,pid⟩ := heard j (Finset.mem_of_mem_erase member) (Finset.ne_of_mem_erase member)
    exact List.mem_toFinset.mpr (List.mem_map.mpr ⟨reply,stored,pid⟩)
  have count := Finset.card_le_card_of_injOn pids mapped distinct.injOn
  have bound := List.toFinset_card_le ((node c i).heartbeatReplies.map (·.ballot.pid))
  have erased := Finset.pred_card_le_card_erase (s:=members) (a:=i)
  rw [List.length_map] at bound
  omega

theorem answers_count (sound : Sound pids config c) (answered : Answered pids c i) :
    n ≤ (node c i).heartbeatReplies.length+1 := by
  have count := members_count sound.distinct (fun j (_ : j ∈ Finset.univ) => answered j)
  rwa [Finset.card_univ,Fintype.card_fin] at count

theorem prepare_mono {quorum : Quorum} (enough : quorum.isPrepareQuorum k = true) (more : k ≤ k') :
    quorum.isPrepareQuorum k' = true := by
  cases quorum <;> simp only [Quorum.isPrepareQuorum,decide_eq_true_eq] at enough ⊢ <;> omega

theorem accept_mono {quorum : Quorum} (enough : quorum.isAcceptQuorum k = true) (more : k ≤ k') :
    quorum.isAcceptQuorum k' = true := by
  cases quorum <;> simp only [Quorum.isAcceptQuorum,decide_eq_true_eq] at enough ⊢ <;> omega

theorem happiness_eq (s : BallotLeaderElection) (state : Role × Phase) : (s.updateLeader.updateHappiness state).happy =
    if s.updateLeader.leader = s.currentBallot then
      (match state with
        | (.leader,.accept) => s.quorum.isAcceptQuorum
            ((s.heartbeatReplies.filter fun r => decide (r.leader ≤ s.currentBallot)).length+1)
        | _ => s.quorum.isPrepareQuorum ((s.heartbeatReplies.filter fun r => decide (r.leader ≤ s.currentBallot)).length+1)) ||
      s.heartbeatReplies.any fun r => decide (s.currentBallot < r.leader) && r.happy
    else s.heartbeatReplies.any fun r => decide (r.ballot = s.updateLeader.leader) && r.happy := by
  have update := (updateLeader_spec s).1
  generalize s.updateLeader.leader = leader at update
  rw [update]
  unfold BallotLeaderElection.updateHappiness
  split <;> rfl

-- A leader that enough of the others follow is happy.
theorem happy_counted {s : BallotLeaderElection} (own : s.updateLeader.leader = s.currentBallot)
    (followed : ∀ reply ∈ s.heartbeatReplies, rank reply.leader ≤ rank s.currentBallot)
    (accept : state = (.leader,.accept) → s.quorum.isAcceptQuorum (s.heartbeatReplies.length+1) = true)
    (prepare : state ≠ (.leader,.accept) → s.quorum.isPrepareQuorum (s.heartbeatReplies.length+1) = true) :
    (s.updateLeader.updateHappiness state).happy = true := by
  have all : (s.heartbeatReplies.filter fun r => decide (r.leader ≤ s.currentBallot)) = s.heartbeatReplies := by
    refine List.filter_eq_self.mpr ?_
    intro reply member
    exact decide_eq_true ((le_iff_rank ..).mpr (followed reply member))
  rw [happiness_eq,if_pos own,Bool.or_eq_true,all]
  left
  split
  · exact accept rfl
  · rename_i other
    exact prepare fun same => other same

-- A leader that all of the others follow is happy, and so is one that hears of a
-- happy leader above itself.
theorem happy_leading (sound : Sound pids config c) (answered : Answered pids c i)
    (own : (node c i).updateLeader.leader = (node c i).currentBallot)
    (trusted : ∀ reply ∈ (node c i).heartbeatReplies, rank (node c i).currentBallot < rank reply.leader → reply.happy = true) :
    ((node c i).updateLeader.updateHappiness state).happy = true := by
  by_cases followed : ∀ reply ∈ (node c i).heartbeatReplies, rank reply.leader ≤ rank (node c i).currentBallot
  · have count := answers_count sound answered
    obtain ⟨prepare,accept⟩ := sound.quorum i
    exact happy_counted own followed (fun _ => accept_mono accept count) fun _ => prepare_mono prepare count
  · obtain ⟨reply,member,more⟩ : ∃ reply ∈ (node c i).heartbeatReplies, rank (node c i).currentBallot < rank reply.leader := by
      simpa only [not_forall,not_le,exists_prop] using followed
    rw [happiness_eq,if_pos own,Bool.or_eq_true]
    right
    refine List.any_eq_true.mpr ⟨reply,member,?_⟩
    rw [Bool.and_eq_true,decide_eq_true_eq,lt_iff_rank]
    exact ⟨more,trusted reply member more⟩

theorem happy_following {s : BallotLeaderElection} {reply : HeartbeatReply} (other : s.updateLeader.leader ≠ s.currentBallot)
    (member : reply ∈ s.heartbeatReplies) (same : reply.ballot = s.updateLeader.leader) (happy : reply.happy = true) :
    (s.updateLeader.updateHappiness state).happy = true := by
  rw [happiness_eq,if_neg other]
  refine List.any_eq_true.mpr ⟨reply,member,?_⟩
  rw [Bool.and_eq_true,decide_eq_true_eq]
  exact ⟨same,happy⟩

-- A node that is happy leaves its own ballot and is happy in the next round.
theorem stays_happy {s next : BallotLeaderElection} (happy : (s.updateLeader.updateHappiness state).happy = true)
    (renewed : Renewed s state promise next) :
    takesOver s state = false ∧ next.currentBallot = s.currentBallot ∧ next.happy = true := by
  have stays : takesOver s state = false := by rw [takesOver,happy]; rfl
  refine ⟨stays,?_,?_⟩
  · rw [renewed.current,stays]
    rfl
  · rcases renewed.outcome with ⟨_,_,adopts⟩ | ⟨_,_,kept⟩
    · exact adopts
    · rw [kept,happy,Bool.or_true]

-- Whoever follows a leader above `top` is happy, and was when it answered.
structure Confident (top : Ballot) (c : Electorate n) : Prop where
  nodes : ∀ i, rank top < rank (node c i).leader → (node c i).happy = true
  replies : ∀ j, ∀ m ∈ (node c j).outgoing, ∀ reply, m.msg = .reply reply → rank top < rank reply.leader → reply.happy = true

theorem confident_below (sound : Sound pids config c) (below : ∀ i, rank (node c i).leader ≤ rank top) : Confident top c := by
  refine ⟨fun i above => absurd above (not_lt.mpr (below i)),?_⟩
  intro j m sent reply answers above
  have told := (sound.replies j m sent reply answers).leader
  exact absurd above (not_lt.mpr (le_trans told (below j)))

theorem Confident.heard {reply : HeartbeatReply} (confident : Confident top c) (sound : Sound pids config c)
    (member : reply ∈ (node c i).heartbeatReplies) (above : rank top < rank reply.leader) : reply.happy = true := by
  obtain ⟨_,j,m,sent,_,answers⟩ := sound.stored i reply member
  exact confident.replies j m sent reply answers above

-- The reply of the node whose ballot is the leader came after that ballot.
theorem recent_reply (sound : Sound pids config c) (answered : Answered pids c i)
    (other : j ≠ i) (led : (node c i).leader.pid = pids j) : ∃ reply ∈ (node c i).heartbeatReplies,
      Says pids config c j reply ∧ rank (node c i).leader ≤ rank reply.ballot := by
  obtain ⟨reply,member,pid⟩ := answered j other
  obtain ⟨round,k,m,sent,receiver,answers⟩ := sound.stored i reply member
  have told := sound.replies k m sent reply answers
  cases sound.distinct (told.pid.symm.trans pid)
  exact ⟨reply,member,told,(sound.recent j m sent reply answers i receiver).2 round led⟩

theorem happy_above (sound : Sound pids config c) (confident : Confident top c)
    (answered : Answered pids c i) (above : rank top < rank (node c i).updateLeader.leader) :
    ((node c i).updateLeader.updateHappiness state).happy = true := by
  by_cases own : (node c i).updateLeader.leader = (node c i).currentBallot
  · refine happy_leading sound answered own ?_
    intro reply member more
    exact confident.heard sound member (lt_trans above (own ▸ more))
  · -- The leader is a ballot that some reply names.
    obtain ⟨reply,member,same⟩ : ∃ reply ∈ (node c i).heartbeatReplies, reply.ballot = (node c i).updateLeader.leader := by
      obtain ⟨_,heard,most⟩ := updateLeader_spec (node c i)
      rcases List.mem_cons.mp heard with before | answers
      · obtain ⟨j,pid,sameConfig,below⟩ := sound.held i
        rw [before] at own ⊢
        rcases eq_or_ne j i with rfl | other
        · refine absurd (eq_of_rank ?_ (le_antisymm below (sound.below j))) own
          rw [sameConfig,(sound.own j).2]
        · obtain ⟨reply,member,told,recent⟩ := recent_reply sound answered other pid
          refine ⟨reply,member,eq_of_rank (told.config.trans sameConfig.symm) (le_antisymm ?_ recent)⟩
          rw [←before]
          exact most _ (List.mem_cons_of_mem _ (List.mem_map_of_mem member))
      · obtain ⟨reply,member,same⟩ := List.mem_map.mp answers
        exact ⟨reply,member,same⟩
    obtain ⟨j,told⟩ := sound.heard member
    refine happy_following own member same (confident.heard sound member ?_)
    rw [←same] at above
    exact lt_of_lt_of_le above told.below

theorem confident_step (sound : Sound pids config c) (confident : Confident top c)
    (quiet : Undisturbed c action) (complete : Complete c action) (ran : step c action = some next) : Confident top next := by
  rcases step_cases ran quiet with ⟨i,state,promise,rfl,becomes⟩ | ⟨_,_,i,rfl,m,_,_,becomes⟩
  · have renewed := sound.renewed quiet
    have answered := answered_complete sound complete
    refine ⟨fun j above => ?_,fun j m member reply answers above => ?_⟩
    · rcases eq_or_ne j i with rfl | other
      · rw [becomes.here] at above ⊢
        rcases renewed.outcome with ⟨_,_,adopts⟩ | ⟨_,leader,kept⟩
        · exact adopts
        · rw [leader] at above
          rw [kept]
          cases wins : takesOver (node c j) state with
          | true => rfl
          | false =>
            rw [elected,wins] at above
            exact happy_above sound confident answered above
      · rw [becomes.others j other] at above ⊢
        exact confident.nodes j above
    · exact confident.replies j m (timeout_replies sound becomes renewed j m member reply answers) reply answers above
  · have unmoved := unmoved_deliver becomes
    refine ⟨fun j above => ?_,fun j other member reply answers above => ?_⟩
    · rw [(unmoved j).leader] at above
      rw [(unmoved j).happy]
      exact confident.nodes j above
    · rcases deliver_sent becomes j other member with old | ⟨rfl,_,_,rfl⟩
      · exact confident.replies j other old reply answers above
      · cases answers
        exact confident.nodes j above

-- The replies that a node counts, or may still count, in its current round.
def Heard (pids : Fin n → NodeId) (said : HeartbeatReply → Prop) (c : Electorate n) (i : Fin n) : Prop :=
  ∀ j, ∀ m ∈ (node c j).outgoing, m.receiver = pids i → ∀ reply, m.msg = .reply reply → reply.round = (node c i).hbRound →
    said reply

-- Whatever a node would answer now.
def Telling (said : HeartbeatReply → Prop) (c : Electorate n) : Prop :=
  ∀ j round, said ⟨round,(node c j).currentBallot,(node c j).leader,(node c j).happy⟩

theorem Heard.stored {said : HeartbeatReply → Prop} {reply : HeartbeatReply} (heard : Heard pids said c i)
    (sound : Sound pids config c) (member : reply ∈ (node c i).heartbeatReplies) : said reply := by
  obtain ⟨round,j,m,sent,receiver,answers⟩ := sound.stored i reply member
  exact heard j m sent receiver reply answers round

-- No reply of the round that has just begun is under way.
theorem heard_timeout {said : HeartbeatReply → Prop} (sound : Sound pids config c) (becomes : Becomes c next i s)
    (renewed : Renewed (node c i) state promise s) : Heard pids said next i := by
  intro j m member receiver reply answers round
  have old := timeout_replies sound becomes renewed j m member reply answers
  have bound := (sound.recent j m old reply answers i receiver).1
  rw [becomes.here,renewed.round] at round
  omega

theorem heard_step {said : HeartbeatReply → Prop} (sound : Sound pids config c) (telling : Telling said c)
    (heard : Heard pids said c k) (quiet : Undisturbed c action) (ran : step c action = some next) : Heard pids said next k := by
  rcases step_cases ran quiet with ⟨i,state,promise,rfl,becomes⟩ | ⟨_,_,i,rfl,m,_,_,becomes⟩
  · have renewed := sound.renewed quiet
    rcases eq_or_ne k i with rfl | other
    · exact heard_timeout sound becomes renewed
    · intro j m member receiver reply answers round
      rw [becomes.others k other] at round
      exact heard j m (timeout_replies sound becomes renewed j m member reply answers) receiver reply answers round
  · intro j other member receiver reply answers round
    rw [(unmoved_deliver becomes k).round] at round
    rcases deliver_sent becomes j other member with old | ⟨rfl,_,_,rfl⟩
    · exact heard j other old receiver reply answers round
    · cases answers
      exact telling j _

end Sound
end OmniPaxosKV.Heartbeats

import Mathlib.Data.Finset.Card
import Mathlib.Data.Fintype.Basic
import OmniPaxosKV.Ballots

-- Who stands behind a takeover: over a network that delivers a heartbeat at most
-- once, the replies of a round come from as many nodes as there are replies.
namespace OmniPaxosKV.Takeover
open Machine Ballots
open Leadership (Closed hbTimeout_closed)

-- Two messages of one sender that say the same to the same node.
def Repeats (a b : BLEMessage) : Prop :=
  a.receiver = b.receiver ∧ match a.msg,b.msg with
    | .request first,.request second => first = second
    | .reply first,.reply second => first.round = second.round
    | _,_ => False

theorem Repeats.symm {a b : BLEMessage} (repeats : Repeats a b) : Repeats b a := by
  obtain ⟨receiver,same⟩ := repeats
  refine ⟨receiver.symm,?_⟩
  split at same
  · rename_i first second; simp only [first,second]; exact same.symm
  · rename_i first second; simp only [first,second]; exact same.symm
  · exact absurd same not_false

theorem pairwise_places {messages : List BLEMessage} {place place' : Nat} (apart : messages.Pairwise fun a b => ¬ Repeats a b)
    (first : messages[place]? = some a) (second : messages[place']? = some b) (repeats : Repeats a b) : place = place' := by
  obtain ⟨inside,rfl⟩ := List.getElem?_eq_some_iff.mp first
  obtain ⟨inside',rfl⟩ := List.getElem?_eq_some_iff.mp second
  have ordered := List.pairwise_iff_getElem.mp apart
  rcases Nat.lt_trichotomy place place' with before | same | after
  · exact absurd repeats (ordered place place' inside inside' before)
  · exact same
  · exact absurd repeats.symm (ordered place' place inside' inside after)

-- The network takes each message once at most.
def Once (c : Electorate n) : Act n → Prop
  | .deliver source place _ => (source,place) ∉ c.delivered
  | .timeout _ _ _ => True
  | .setPriority _ _ => True

-- What a node has sent, on its own.
structure Sends (key : NodeId) (s : BallotLeaderElection) : Prop where
  pid : s.pid = key
  own : s.currentBallot.pid = s.pid
  peers : s.peers.Nodup
  apart : s.pid ∉ s.peers
  once : s.outgoing.Pairwise fun a b => ¬ Repeats a b
  sender : ∀ m ∈ s.outgoing, m.sender = s.pid
  requests : ∀ m ∈ s.outgoing, ∀ round, m.msg = .request round → round ≤ s.hbRound ∧ m.receiver ∈ s.peers
  replies : ∀ m ∈ s.outgoing, ∀ reply, m.msg = .reply reply → reply.ballot.pid = s.pid

-- A message that has arrived: where it comes from and what it says.
def Arrived (c : Electorate n) (source : Fin n) (m : BLEMessage) : Prop :=
  ∃ place, (source,place) ∈ c.delivered ∧ (c.nodes source).ble.outgoing[place]? = some m

-- What holds between nodes: every reply answers a request that has arrived, and
-- every stored reply has arrived, one from a node at most.
structure Answers (pids : Fin n → NodeId) (c : Electorate n) (i : Fin n) : Prop where
  asked : ∀ m ∈ (c.nodes i).ble.outgoing, ∀ reply, m.msg = .reply reply → ∃ source request,
    Arrived c source request ∧ m.receiver = pids source ∧ request.receiver = pids i ∧ request.msg = .request reply.round
  heard : ∀ reply ∈ (c.nodes i).ble.heartbeatReplies, reply.round = (c.nodes i).ble.hbRound ∧ ∃ source m,
    Arrived c source m ∧ m.receiver = pids i ∧ m.msg = .reply reply ∧ reply.ballot.pid = pids source
  distinct : ((c.nodes i).ble.heartbeatReplies.map (·.ballot.pid)).Nodup

structure Valid (pids : Fin n → NodeId) (c : Electorate n) : Prop where
  sends : ∀ i, Sends (pids i) (c.nodes i).ble
  answers : ∀ i, Answers pids c i

-- A new round asks every peer once, for a round not asked for before.
theorem requests_once (s : BallotLeaderElection) (sends : Sends key s) :
    (s.outgoing++s.peers.map fun peer => (⟨s.pid,peer,.request (s.hbRound+1)⟩ : BLEMessage)).Pairwise
      fun a b => ¬ Repeats a b := by
  refine List.pairwise_append.mpr ⟨sends.once,?_,?_⟩
  · refine List.pairwise_map.mpr (sends.peers.imp fun differ repeats => differ repeats.1)
  · intro old earlier new later repeats
    obtain ⟨peer,_,rfl⟩ := List.mem_map.mp later
    obtain ⟨_,same⟩ := repeats
    split at same
    · rename_i round _ asked again
      cases again
      have bound := (sends.requests old earlier round asked).1
      omega
    · rename_i impossible
      cases impossible
    · exact same

theorem sends_closed {s next : BallotLeaderElection} (sends : Sends key s)
    (closed : Closed s state promise result next) : Sends key next := by
  refine ⟨closed.pid.trans sends.pid,?_,?_,?_,?_,?_,?_,?_⟩
  · exact (closed.settles.own sends.own).trans closed.pid.symm
  · rw [closed.peers]; exact sends.peers
  · rw [closed.peers,closed.pid]; exact sends.apart
  · rw [closed.outgoing]; exact requests_once s sends
  · intro m member
    rw [closed.outgoing] at member
    rw [closed.pid]
    rcases List.mem_append.mp member with old | new
    · exact sends.sender m old
    · obtain ⟨peer,_,rfl⟩ := List.mem_map.mp new
      rfl
  · intro m member round asks
    rw [closed.outgoing] at member
    rw [closed.round,closed.peers]
    rcases List.mem_append.mp member with old | new
    · have bound := sends.requests m old round asks
      exact ⟨Nat.le_succ_of_le bound.1,bound.2⟩
    · obtain ⟨peer,present,rfl⟩ := List.mem_map.mp new
      cases asks
      exact ⟨Nat.le_refl _,present⟩
  · intro m member reply answers
    rw [closed.outgoing] at member
    rw [closed.pid]
    rcases List.mem_append.mp member with old | new
    · exact sends.replies m old reply answers
    · obtain ⟨peer,_,rfl⟩ := List.mem_map.mp new
      cases answers

-- Answering a request that has not been answered before.
theorem sends_answer {s : BallotLeaderElection} (sends : Sends key s) (round : Nat) (receiver : NodeId)
    (fresh : ∀ m ∈ s.outgoing, ∀ reply, m.msg = .reply reply → m.receiver = receiver → reply.round ≠ round) :
    Sends key {s with outgoing:=s.outgoing++[⟨s.pid,receiver,.reply ⟨round,s.currentBallot,s.leader,s.happy⟩⟩]} := by
  refine ⟨sends.pid,sends.own,sends.peers,sends.apart,?_,?_,?_,?_⟩
  · refine List.pairwise_append.mpr ⟨sends.once,List.pairwise_singleton _ _,?_⟩
    intro old earlier new later repeats
    cases List.mem_singleton.mp later
    obtain ⟨receiver,same⟩ := repeats
    split at same
    · rename_i impossible
      cases impossible
    · rename_i first second answers again
      cases again
      exact fresh old earlier first answers receiver same
    · exact same
  · intro m member
    rcases List.mem_append.mp member with old | new
    · exact sends.sender m old
    · cases List.mem_singleton.mp new
      rfl
  · intro m member other asks
    rcases List.mem_append.mp member with old | new
    · exact sends.requests m old other asks
    · cases List.mem_singleton.mp new
      cases asks
  · intro m member reply answers
    rcases List.mem_append.mp member with old | new
    · exact sends.replies m old reply answers
    · cases List.mem_singleton.mp new
      cases answers
      exact sends.own

theorem move_outgoing {e next : Elector} (moved : Move sent e next) :
    ∃ more, next.ble.outgoing = e.ble.outgoing++more := by
  cases moved with
  | stay => exact ⟨[],(List.append_nil _).symm⟩
  | timeout => exact ⟨_,(hbTimeout_closed ..).outgoing⟩
  | hear m =>
    unfold BallotLeaderElection.handle
    split
    · exact ⟨_,rfl⟩
    · split <;> exact ⟨[],(List.append_nil _).symm⟩
  | setPriority => exact ⟨[],(List.append_nil _).symm⟩

theorem step_delivered {c next : Electorate n} (ran : step c action = some next) :
    ∃ more, next.delivered = c.delivered++more := by
  cases action with
  | timeout => cases Option.some.inj ran; exact ⟨[],(List.append_nil _).symm⟩
  | setPriority => cases Option.some.inj ran; exact ⟨[],(List.append_nil _).symm⟩
  | deliver source place target =>
    simp only [step] at ran
    split at ran
    · cases ran
    · split at ran
      · cases Option.some.inj ran
        exact ⟨_,rfl⟩
      · cases ran

-- What has arrived stays arrived: both records only get longer.
theorem arrived_grows {c next : Electorate n} (ran : step c action = some next) (arrived : Arrived c source m) :
    Arrived next source m := by
  obtain ⟨place,member,found⟩ := arrived
  obtain ⟨sent,outgoing⟩ := move_outgoing (step_moves ran source)
  obtain ⟨taken,delivered⟩ := step_delivered ran
  refine ⟨place,?_,?_⟩
  · rw [delivered]
    exact List.mem_append_left _ member
  · rw [outgoing,List.getElem?_append_left (List.getElem?_eq_some_iff.mp found).1]
    exact found

-- What a node has answered and heard before stays backed; the rest has just arrived.
theorem answers_extended {c next : Electorate n} (answers : Answers pids c i) (ran : step c action = some next)
    (sent : ∀ m ∈ (next.nodes i).ble.outgoing, ∀ reply, m.msg = .reply reply → m ∈ (c.nodes i).ble.outgoing ∨
      ∃ source request, Arrived next source request ∧ m.receiver = pids source ∧ request.receiver = pids i ∧
        request.msg = .request reply.round)
    (stored : ∀ reply ∈ (next.nodes i).ble.heartbeatReplies,
      (reply ∈ (c.nodes i).ble.heartbeatReplies ∧ (next.nodes i).ble.hbRound = (c.nodes i).ble.hbRound) ∨
      (reply.round = (next.nodes i).ble.hbRound ∧ ∃ source m, Arrived next source m ∧ m.receiver = pids i ∧
        m.msg = .reply reply ∧ reply.ballot.pid = pids source))
    (distinct : ((next.nodes i).ble.heartbeatReplies.map (·.ballot.pid)).Nodup) : Answers pids next i := by
  refine ⟨?_,?_,distinct⟩
  · intro m member reply carried
    rcases sent m member reply carried with old | new
    · obtain ⟨source,request,arrived,rest⟩ := answers.asked m old reply carried
      exact ⟨source,request,arrived_grows ran arrived,rest⟩
    · exact new
  · intro reply member
    rcases stored reply member with ⟨old,round⟩ | new
    · obtain ⟨current,source,m,arrived,rest⟩ := answers.heard reply old
      exact ⟨current.trans round.symm,source,m,arrived_grows ran arrived,rest⟩
    · exact new

-- A node that gives no new answer and hears none.
theorem answers_kept {c next : Electorate n} (answers : Answers pids c i) (ran : step c action = some next)
    (sent : ∀ m ∈ (next.nodes i).ble.outgoing, ∀ reply, m.msg = .reply reply → m ∈ (c.nodes i).ble.outgoing)
    (stored : (next.nodes i).ble.heartbeatReplies = [] ∨
      ((next.nodes i).ble.heartbeatReplies = (c.nodes i).ble.heartbeatReplies ∧
        (next.nodes i).ble.hbRound = (c.nodes i).ble.hbRound)) : Answers pids next i := by
  refine answers_extended answers ran (fun m member reply carried => .inl (sent m member reply carried)) ?_ ?_
  · intro reply member
    rcases stored with none | ⟨same,round⟩
    · rw [none] at member
      cases member
    · rw [same] at member
      exact .inl ⟨member,round⟩
  · rcases stored with none | ⟨same,_⟩
    · rw [none]
      exact .nil
    · rw [same]
      exact answers.distinct

theorem answers_unmoved {c next : Electorate n} (answers : Answers pids c i) (ran : step c action = some next)
    (same : next.nodes i = c.nodes i) : Answers pids next i := by
  refine answers_kept answers ran ?_ (.inr ?_)
  · intro m member _ _
    rw [same] at member
    exact member
  · rw [same]
    exact ⟨rfl,rfl⟩

-- One node acts and the others rest.
theorem Valid.acting {c next : Electorate n} (valid : Valid pids c) (ran : step c action = some next)
    (resting : ∀ j, j ≠ i → next.nodes j = c.nodes j) (sends : Sends (pids i) (next.nodes i).ble)
    (answers : Answers pids next i) : Valid pids next := by
  refine ⟨fun j => ?_,fun j => ?_⟩
  · by_cases same : j = i
    · subst same
      exact sends
    · rw [resting j same]
      exact valid.sends j
  · by_cases same : j = i
    · subst same
      exact answers
    · exact answers_unmoved (valid.answers j) ran (resting j same)

theorem timeout_valid {c : Electorate n} (valid : Valid pids c) (i : Fin n) (state : Role × Phase) (promise : Ballot)
    (ran : step c (.timeout i state promise) = some next) : Valid pids next := by
  have closed := hbTimeout_closed (c.nodes i).ble state promise
  have acting : (next.nodes i).ble = ((c.nodes i).ble.hbTimeout state promise).2 := by
    cases Option.some.inj ran
    simp only [Function.update_self]
    rfl
  have resting : ∀ j, j ≠ i → next.nodes j = c.nodes j := by
    intro j other
    cases Option.some.inj ran
    exact Function.update_of_ne other ..
  refine valid.acting ran resting ?_ (answers_kept (valid.answers i) ran ?_ (.inl ?_))
  · rw [acting]
    exact sends_closed (valid.sends i) closed
  · intro m member reply carried
    rw [acting,closed.outgoing] at member
    rcases List.mem_append.mp member with old | new
    · exact old
    · obtain ⟨peer,_,rfl⟩ := List.mem_map.mp new
      cases carried
  · rw [acting]
    exact closed.replies

theorem setPriority_valid {c : Electorate n} (valid : Valid pids c) (i : Fin n) (priority : Nat)
    (ran : step c (.setPriority i priority) = some next) : Valid pids next := by
  have acting : (next.nodes i).ble = (c.nodes i).ble.setPriority priority := by
    cases Option.some.inj ran
    simp only [Function.update_self]
  have resting : ∀ j, j ≠ i → next.nodes j = c.nodes j := by
    intro j other
    cases Option.some.inj ran
    exact Function.update_of_ne other ..
  have sends := valid.sends i
  refine valid.acting ran resting ?_ (answers_kept (valid.answers i) ran ?_ (.inr ?_))
  all_goals rw [acting]
  · exact ⟨sends.pid,sends.own,sends.peers,sends.apart,sends.once,sends.sender,sends.requests,sends.replies⟩
  · exact fun m member _ _ => member
  · exact ⟨rfl,rfl⟩

theorem deliver_parts {c next : Electorate n} (ran : step c (.deliver source place target) = some next) :
    ∃ m, (c.nodes source).ble.outgoing[place]? = some m ∧ m.receiver = (c.nodes target).ble.pid ∧
      (next.nodes target).ble = (c.nodes target).ble.handle m ∧ (∀ j, j ≠ target → next.nodes j = c.nodes j) ∧
      Arrived next source m := by
  have grows := move_outgoing (step_moves ran source)
  simp only [step] at ran
  split at ran
  · cases ran
  · rename_i m found
    split at ran
    · rename_i receiver
      cases Option.some.inj ran
      refine ⟨m,found,receiver,?_,fun j other => Function.update_of_ne other ..,?_⟩
      · simp only [Function.update_self]
      · refine ⟨place,List.mem_append_right _ List.mem_cons_self,?_⟩
        obtain ⟨more,outgoing⟩ := grows
        rw [outgoing,List.getElem?_append_left (List.getElem?_eq_some_iff.mp found).1]
        exact found
    · cases ran

-- A request that arrives for the first time has not been answered: an earlier
-- answer would belong to another copy of it, and nothing is sent twice.
theorem request_unanswered {c : Electorate n} {round : Nat} (valid : Valid pids c) (distinct : Function.Injective pids)
    (once : (source,place) ∉ c.delivered) (found : (c.nodes source).ble.outgoing[place]? = some m)
    (receiver : m.receiver = pids target) (asks : m.msg = .request round) :
    ∀ answer ∈ (c.nodes target).ble.outgoing, ∀ reply, answer.msg = .reply reply → answer.receiver = pids source →
      reply.round ≠ round := by
  rintro answer sent reply carried addressed rfl
  obtain ⟨other,request,⟨place',arrived,found'⟩,from_,to_,asked⟩ := (valid.answers target).asked answer sent reply carried
  cases distinct (addressed.symm.trans from_)
  have repeats : Repeats m request := by
    refine ⟨receiver.trans to_.symm,?_⟩
    rw [asks,asked]
  cases pairwise_places (valid.sends source).once found found' repeats
  exact once arrived

-- A reply that arrives for the first time is the first one of its sender in the round.
theorem reply_unheard {c : Electorate n} (valid : Valid pids c) (distinct : Function.Injective pids)
    (once : (source,place) ∉ c.delivered) (found : (c.nodes source).ble.outgoing[place]? = some m)
    (receiver : m.receiver = pids target) (carried : m.msg = .reply reply)
    (current : reply.round = (c.nodes target).ble.hbRound) :
    pids source ∉ (c.nodes target).ble.heartbeatReplies.map (·.ballot.pid) := by
  intro known
  obtain ⟨earlier,member,same⟩ := List.mem_map.mp known
  obtain ⟨round,other,m',⟨place',arrived,found'⟩,to_,carried',ballot⟩ := (valid.answers target).heard earlier member
  cases distinct (same.symm.trans ballot)
  have repeats : Repeats m m' := by
    refine ⟨receiver.trans to_.symm,?_⟩
    rw [carried,carried']
    exact current.trans round.symm
  cases pairwise_places (valid.sends source).once found found' repeats
  exact once arrived

theorem deliver_valid {c : Electorate n} (valid : Valid pids c) (distinct : Function.Injective pids)
    (once : (source,place) ∉ c.delivered) (ran : step c (.deliver source place target) = some next) : Valid pids next := by
  obtain ⟨m,found,addressed,acting,resting,arrived⟩ := deliver_parts ran
  have sent := List.mem_of_getElem? found
  have sender : m.sender = pids source := ((valid.sends source).sender m sent).trans (valid.sends source).pid
  have receiver : m.receiver = pids target := addressed.trans (valid.sends target).pid
  have sends := valid.sends target
  cases carried : m.msg with
  | request round =>
    have fresh := request_unanswered valid distinct once found receiver carried
    have handled : (next.nodes target).ble = {(c.nodes target).ble with
        outgoing:=(c.nodes target).ble.outgoing++[⟨(c.nodes target).ble.pid,pids source,.reply
          ⟨round,(c.nodes target).ble.currentBallot,(c.nodes target).ble.leader,(c.nodes target).ble.happy⟩⟩]} := by
      rw [acting,BallotLeaderElection.handle,carried,sender]
    refine valid.acting ran resting ?_ (answers_extended (valid.answers target) ran ?_ ?_ ?_)
    · rw [handled]
      exact sends_answer sends round (pids source) fresh
    · intro answer member reply tells
      rw [handled] at member
      rcases List.mem_append.mp member with old | new
      · exact .inl old
      · cases List.mem_singleton.mp new
        cases tells
        exact .inr ⟨source,m,arrived,rfl,receiver,carried⟩
    · rw [handled]
      exact fun reply member => .inl ⟨member,rfl⟩
    · rw [handled]
      exact (valid.answers target).distinct
  | reply reply =>
    have ballot : reply.ballot.pid = pids source :=
      ((valid.sends source).replies m sent reply carried).trans (valid.sends source).pid
    rw [BallotLeaderElection.handle,carried] at acting
    simp only at acting
    split at acting
    · rename_i accepted
      have unheard := reply_unheard valid distinct once found receiver carried accepted.1
      refine valid.acting ran resting ?_ (answers_extended (valid.answers target) ran ?_ ?_ ?_)
      all_goals rw [acting]
      · exact ⟨sends.pid,sends.own,sends.peers,sends.apart,sends.once,sends.sender,sends.requests,sends.replies⟩
      · exact fun answer member _ _ => .inl member
      · intro other member
        rcases List.mem_append.mp member with old | new
        · exact .inl ⟨old,rfl⟩
        · cases List.mem_singleton.mp new
          exact .inr ⟨accepted.1,source,m,arrived,receiver,carried,ballot⟩
      · simp only [List.map_append,List.map_cons,List.map_nil,ballot]
        exact (valid.answers target).distinct.append (List.nodup_singleton _) (by simpa using unheard)
    -- A late reply, or one of another configuration, is dropped.
    · refine valid.acting ran resting ?_ (answers_kept (valid.answers target) ran ?_ (.inr ?_))
      all_goals rw [acting]
      · exact sends
      · exact fun answer member _ _ => member
      · exact ⟨rfl,rfl⟩

theorem step_valid {c next : Electorate n} (distinct : Function.Injective pids) (valid : Valid pids c) (once : Once c action)
    (ran : step c action = some next) : Valid pids next := by
  cases action with
  | timeout i state promise => exact timeout_valid valid i state promise ran
  | deliver source place target => exact deliver_valid valid distinct once ran
  | setPriority i priority => exact setPriority_valid valid i priority ran

theorem start_valid {configs : Fin n → OmniPaxosConfig} (recovered : Fin n → Option Ballot)
    (listed : ∀ i, (configs i).clusterConfig.nodes.Nodup) :
    Valid (fun i => (configs i).serverConfig.pid) (start (fun i => (configs i).bleConfig) recovered) := by
  refine ⟨fun i => ?_,fun i => ?_⟩
  · have peers : (configs i).peers.Nodup := (listed i).filter _
    have apart : (configs i).serverConfig.pid ∉ (configs i).peers := by simp [OmniPaxosConfig.peers]
    refine ⟨rfl,(Leadership.new_ballots _ _).1,peers,apart,?_,?_,?_,?_⟩
    · exact List.pairwise_map.mpr (peers.imp fun differ repeats => differ repeats.1)
    · intro m member
      obtain ⟨peer,_,rfl⟩ := List.mem_map.mp member
      rfl
    · intro m member round asks
      obtain ⟨peer,present,rfl⟩ := List.mem_map.mp member
      cases asks
      exact ⟨Nat.le_refl _,present⟩
    · intro m member reply tells
      obtain ⟨peer,_,rfl⟩ := List.mem_map.mp member
      cases tells
  · refine ⟨?_,nofun,.nil⟩
    intro m member reply tells
    obtain ⟨peer,_,rfl⟩ := List.mem_map.mp member
    cases tells

-- No node hears itself: it asks its peers only.
theorem own_unheard {c : Electorate n} (valid : Valid pids c) (distinct : Function.Injective pids) (i : Fin n) :
    pids i ∉ (c.nodes i).ble.heartbeatReplies.map (·.ballot.pid) := by
  intro known
  obtain ⟨reply,member,own⟩ := List.mem_map.mp known
  obtain ⟨_,source,m,⟨place,_,found⟩,receiver,carried,ballot⟩ := (valid.answers i).heard reply member
  cases distinct (own.symm.trans ballot)
  obtain ⟨asker,request,⟨place',_,found'⟩,from_,to_,asked⟩ :=
    (valid.answers i).asked m (List.mem_of_getElem? found) reply carried
  cases distinct (receiver.symm.trans from_)
  have peer := ((valid.sends i).requests request (List.mem_of_getElem? found') reply.round asked).2
  rw [to_,←(valid.sends i).pid] at peer
  exact (valid.sends i).apart peer

-- The nodes behind the replies of the current round, and the node itself.
def backers (pids : Fin n → NodeId) (c : Electorate n) (i : Fin n) : Finset (Fin n) :=
  insert i (Finset.univ.filter fun j => pids j ∈ (c.nodes i).ble.heartbeatReplies.map (·.ballot.pid))

theorem backers_card {c : Electorate n} (valid : Valid pids c) (distinct : Function.Injective pids) (i : Fin n) :
    (backers pids c i).card = (c.nodes i).ble.heartbeatReplies.length+1 := by
  have image : (Finset.univ.filter fun j => pids j ∈ (c.nodes i).ble.heartbeatReplies.map (·.ballot.pid)).image pids =
      ((c.nodes i).ble.heartbeatReplies.map (·.ballot.pid)).toFinset := by
    ext pid
    simp only [Finset.mem_image,Finset.mem_filter,Finset.mem_univ,true_and,List.mem_toFinset]
    constructor
    · rintro ⟨j,member,rfl⟩
      exact member
    · intro member
      obtain ⟨reply,stored,rfl⟩ := List.mem_map.mp member
      obtain ⟨_,source,_,_,_,_,ballot⟩ := (valid.answers i).heard reply stored
      exact ⟨source,ballot ▸ member,ballot.symm⟩
  have counted := congrArg Finset.card image
  rw [Finset.card_image_of_injective _ distinct,List.toFinset_card_of_nodup (valid.answers i).distinct,
    List.length_map] at counted
  rw [backers,Finset.card_insert_of_notMem,counted]
  simpa using own_unheard valid distinct i

-- A takeover has a quorum of distinct nodes behind it: in every run in which no
-- heartbeat arrives twice, the node itself and nodes that each answered its
-- current round unhappily.
theorem takeover_backed {n : Nat} (configs : Fin n → OmniPaxosConfig) (recovered : Fin n → Option Ballot)
    (distinct : Function.Injective fun i => (configs i).serverConfig.pid)
    (listed : ∀ i, (configs i).clusterConfig.nodes.Nodup) (actions : List (Act n)) (c : Electorate n)
    (path : Runs step Once (start (fun i => (configs i).bleConfig) recovered) actions c) (i : Fin n) (state : Role × Phase)
    (raised : ((c.nodes i).ble.updateLeader.updateHappiness state).checkTakeover.currentBallot ≠
      ((c.nodes i).ble.updateLeader.updateHappiness state).currentBallot) :
    ∃ members : Finset (Fin n), i ∈ members ∧ (c.nodes i).ble.quorum.isPrepareQuorum members.card = true ∧
      ∀ j ∈ members, j ≠ i → ∃ m reply, Arrived c j m ∧ m.receiver = (configs i).serverConfig.pid ∧ m.msg = .reply reply ∧
        reply ∈ (c.nodes i).ble.heartbeatReplies ∧ reply.round = (c.nodes i).ble.hbRound ∧ reply.happy = false := by
  have valid := path.invariant (Valid fun i => (configs i).serverConfig.pid)
    (fun _ _ _ valid once ran => step_valid distinct valid once ran) (start_valid recovered listed)
  have update := (Leadership.updateLeader_spec (c.nodes i).ble).1
  have replies : ((c.nodes i).ble.updateLeader.updateHappiness state).heartbeatReplies = (c.nodes i).ble.heartbeatReplies :=
    congrArg (·.heartbeatReplies) update
  have quorum : ((c.nodes i).ble.updateLeader.updateHappiness state).quorum = (c.nodes i).ble.quorum :=
    congrArg (·.quorum) update
  unfold BallotLeaderElection.checkTakeover at raised
  rw [replies,quorum] at raised
  split at raised
  · rename_i taken
    simp only [Bool.and_eq_true,Bool.not_eq_true',List.all_eq_true] at taken
    refine ⟨backers (fun i => (configs i).serverConfig.pid) c i,Finset.mem_insert_self ..,?_,fun j member other => ?_⟩
    · rw [backers_card valid distinct i]
      exact taken.2
    · have known := (Finset.mem_insert.mp member).resolve_left other
      obtain ⟨reply,stored,same⟩ := List.mem_map.mp (Finset.mem_filter.mp known).2
      obtain ⟨current,source,m,arrived,receiver,carried,ballot⟩ := (valid.answers i).heard reply stored
      cases distinct (same.symm.trans ballot)
      exact ⟨m,reply,arrived,receiver,carried,stored,current,taken.1.2 reply stored⟩
  · exact absurd rfl raised

instance (c : Electorate n) (action : Act n) : Decidable (Once c action) :=
  match action with
  | .deliver _ _ _ => inferInstanceAs (Decidable (¬ _))
  | .timeout _ _ _ => .isTrue trivial
  | .setPriority _ _ => .isTrue trivial

def sampleConfigs (i : Fin 3) : OmniPaxosConfig := (Leadership.sampleConfig (i.val+1)).omniPaxosConfig

-- Nobody is heard in the first round, so both nodes are unhappy when the second
-- node answers in the second round of the first.
def sampleTakeover : List (Act 3) :=
  [.timeout sampleFirst (.follower,.none) {},.timeout sampleSecond (.follower,.none) {},
    .deliver sampleFirst 2 sampleSecond,.deliver sampleSecond 4 sampleFirst]

theorem takeover_backed_sample : ∃ (c : Electorate 3) (members : Finset (Fin 3)), sampleFirst ∈ members ∧
    (c.nodes sampleFirst).ble.quorum.isPrepareQuorum members.card = true := by
  obtain ⟨c,path,raised⟩ := run_reaches step Once (fun c : Electorate 3 =>
      ((c.nodes sampleFirst).ble.updateLeader.updateHappiness (.follower,.none)).checkTakeover.currentBallot ≠
        ((c.nodes sampleFirst).ble.updateLeader.updateHappiness (.follower,.none)).currentBallot)
    (start (fun i => (sampleConfigs i).bleConfig) fun _ => none) sampleTakeover (by decide +kernel)
  obtain ⟨members,own,quorum,_⟩ := takeover_backed sampleConfigs (fun _ => none) samplePeers_distinct
    (fun _ => by simp [sampleConfigs,Leadership.sampleConfig,ServerConfig.omniPaxosConfig]) sampleTakeover c path
    sampleFirst (.follower,.none) raised
  exact ⟨c,members,own,quorum⟩

end OmniPaxosKV.Takeover

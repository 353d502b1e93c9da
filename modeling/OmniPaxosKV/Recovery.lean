import OmniPaxosKV.Ballots

-- The promise of one node, kept in storage, cache, replica and election at once,
-- over runs in which the node may be rebuilt from its storage at any time.
namespace OmniPaxosKV.Recovery
open Machine
open Leadership hiding Act step
open Ballots (ballot_le_refl ballot_le_trans ballot_le_of_lt ballot_le_of_not_lt timeout_leader timeout_returned)

variable {T : Type}

inductive Act where
  | tick
  | heartbeat (m : BLEMessage)
  | tryBecomeLeader
  | setPriority (priority : Nat)
  | restart (config : OmniPaxosConfig) (clock : ClockState)

abbrev stored (s : OmniPaxos T) : Option Ballot := s.seqPaxos.internalStorage.storage.nProm

def step (s : OmniPaxos T) : Act → Option (OmniPaxos T)
  | .tick => some s.tick
  | .heartbeat m => some {s with ble:=s.ble.handle m}
  | .tryBecomeLeader => some s.tryBecomeLeader
  | .setPriority priority => some {s with ble:=s.ble.setPriority priority}
  | .restart config clock => match config.build s.seqPaxos.internalStorage.storage clock with
    | .ok rebuilt => some rebuilt
    | .error _ => none

-- No ballot is below the default one.
theorem default_least (b : Ballot) : ¬ b < {} := by
  rw [not_lt_iff_rank]
  unfold rank
  rw [Prod.Lex.toLex_le_toLex]
  rcases Nat.eq_zero_or_pos b.n with zero | positive
  · refine .inr ⟨zero.symm,?_⟩
    rw [Prod.Lex.toLex_le_toLex]
    rcases Nat.eq_zero_or_pos b.priority with none | some
    · exact .inr ⟨none.symm,Nat.zero_le _⟩
    · exact .inl some
  · exact .inl positive

theorem number_of_le {a b : Ballot} (less : a ≤ b) : a.n ≤ b.n := by
  rw [le_iff_rank] at less
  unfold rank at less
  rw [Prod.Lex.toLex_le_toLex] at less
  rcases less with below | ⟨same,_⟩
  · exact Nat.le_of_lt below
  · exact Nat.le_of_eq same

theorem lt_of_number {a b : Ballot} (less : a.n < b.n) : a < b :=
  (lt_iff_rank ..).mpr (Prod.Lex.toLex_lt_toLex.mpr (.inl less))

-- Where the own ballot comes from when a round closes.
theorem timeout_current (s : BallotLeaderElection) (state : Role × Phase) (promise : Ballot) :
    (s.hbTimeout state promise).2.currentBallot = s.currentBallot ∨
    s.leader.n < (s.hbTimeout state promise).2.currentBallot.n ∨
    (s.leader < promise ∧ (s.hbTimeout state promise).2.currentBallot = promise) := by
  let updated := s.updateLeader.updateHappiness state
  have heard : s.leader ≤ updated.leader := (le_iff_rank ..).mpr ((updateLeader_spec s).2.2 _ List.mem_cons_self)
  have kept : updated.currentBallot = s.currentBallot := congrArg (·.currentBallot) (updateLeader_spec s).1
  have raised : s.leader ≤ updated.checkTakeover.leader := ballot_le_trans heard (Ballots.takeover_leader updated)
  have taken : updated.checkTakeover.currentBallot = s.currentBallot ∨
      s.leader.n < updated.checkTakeover.currentBallot.n := by
    unfold BallotLeaderElection.checkTakeover
    split
    · exact .inr (Nat.lt_succ_of_le (number_of_le heard))
    · exact .inl kept
  change (updated.checkTakeover.newHbRound.adoptPromise promise).currentBallot = _ ∨
    _ < (updated.checkTakeover.newHbRound.adoptPromise promise).currentBallot.n ∨
    (_ ∧ (updated.checkTakeover.newHbRound.adoptPromise promise).currentBallot = _)
  unfold BallotLeaderElection.adoptPromise
  split
  · rename_i behind
    change updated.checkTakeover.leader < promise at behind
    simp only
    split
    · refine .inr (.inr ⟨?_,rfl⟩)
      rw [lt_iff_rank] at behind ⊢
      exact lt_of_le_of_lt ((le_iff_rank ..).mp raised) behind
    · exact taken.imp id .inl
  · exact taken.imp id .inl

theorem handleLeader_stored {s : SequencePaxos T} {n : Ballot} (own : s.pid = n.pid) (promised : s.nLeader = s.promise) :
    (s.handleLeader n).internalStorage.storage.nProm =
      if s.promise < n then some n else s.internalStorage.storage.nProm := by
  have refused : (n ≤ s.nLeader ∨ n ≤ s.promise) ↔ ¬ s.promise < n := by
    rw [promised,or_self,le_iff_rank,not_lt_iff_rank]
  unfold SequencePaxos.handleLeader
  by_cases more : s.promise < n
  · rw [if_neg (fun held => refused.mp held more),if_pos own,if_pos more]
    rfl
  · rw [if_pos (refused.mpr more),if_neg more]

-- The promise is the same everywhere, and one that is not the default belongs to
-- a numbered round.
structure Promised (s : OmniPaxos T) : Prop where
  pid : s.ble.pid = s.seqPaxos.pid
  own : s.ble.currentBallot.pid = s.ble.pid
  leader : s.seqPaxos.nLeader = s.seqPaxos.promise
  stored : stored s = some s.seqPaxos.promise
  numbered : s.seqPaxos.promise = {} ∨ 1 ≤ s.seqPaxos.promise.n
  fresh : s.seqPaxos.promise = {} → 1 ≤ s.ble.currentBallot.n

-- The replica hears of the node's own ballot only, and takes it if it is larger.
theorem lead_promised {s : SequencePaxos T} {ble : BallotLeaderElection} {clock : LogicalClock} {n : Ballot}
    (own : s.pid = n.pid) (pid : ble.pid = s.pid) (current : ble.currentBallot.pid = ble.pid)
    (leader : s.nLeader = s.promise) (kept : s.internalStorage.storage.nProm = some s.promise)
    (numbered : s.promise = {} ∨ 1 ≤ s.promise.n) (fresh : s.promise = {} → 1 ≤ ble.currentBallot.n) (first : 1 ≤ n.n) :
    Promised ⟨s.handleLeader n,ble,clock⟩ := by
  obtain ⟨samePid,sameLeader,promise,_⟩ := handleLeader_own own leader
  have written := handleLeader_stored own leader
  refine ⟨pid.trans samePid.symm,current,sameLeader,?_,?_,?_⟩
  · change (s.handleLeader n).internalStorage.storage.nProm = some (s.handleLeader n).promise
    rw [written,promise]
    split
    · rfl
    · exact kept
  · change (s.handleLeader n).promise = {} ∨ 1 ≤ (s.handleLeader n).promise.n
    rw [promise]
    split
    · exact .inr first
    · exact numbered
  · change (s.handleLeader n).promise = {} → _
    rw [promise]
    split
    · intro none
      rw [none] at first
      exact absurd first (Nat.not_succ_le_zero 0)
    · exact fresh

theorem heartbeat_promised {s : OmniPaxos T} (valid : Promised s) (m : BLEMessage) :
    Promised {s with ble:=s.ble.handle m} := by
  obtain ⟨replies,outgoing,same⟩ := handle_parts s.ble m
  rw [same]
  exact ⟨valid.pid,valid.own,valid.leader,valid.stored,valid.numbered,valid.fresh⟩

theorem tryBecomeLeader_promised {s : OmniPaxos T} (valid : Promised s) : Promised s.tryBecomeLeader :=
  lead_promised (valid.own.trans valid.pid).symm valid.pid valid.own valid.leader valid.stored valid.numbered valid.fresh
    (Nat.le_add_left ..)

theorem timeout_fresh {s : BallotLeaderElection} {promise : Ballot} (fresh : promise = {} → 1 ≤ s.currentBallot.n)
    (none : promise = {}) (state : Role × Phase) : 1 ≤ (s.hbTimeout state promise).2.currentBallot.n := by
  rcases timeout_current s state promise with same | above | ⟨behind,_⟩
  · rw [same]
    exact fresh none
  · exact Nat.lt_of_le_of_lt (Nat.zero_le _) above
  · rw [none] at behind
    exact absurd behind (default_least _)

theorem tick_promised {s : OmniPaxos T} (valid : Promised s) : Promised s.tick := by
  by_cases closing : Closing s
  · obtain ⟨clock,same⟩ := tick_timeout closing
    have closed := hbTimeout_closed s.ble s.seqPaxos.state s.seqPaxos.promise
    have fresh := fun none => timeout_fresh valid.fresh none s.seqPaxos.state
    have promised := (timeout_leader s.ble s.seqPaxos.state s.seqPaxos.promise).2
    rw [same]
    generalize (s.ble.hbTimeout s.seqPaxos.state s.seqPaxos.promise).2 = ble at *
    have pid : ble.pid = s.seqPaxos.pid := closed.pid.trans valid.pid
    have own : ble.currentBallot.pid = ble.pid := (closed.settles.own valid.own).trans closed.pid.symm
    split
    · rename_i led
      have first : 1 ≤ ble.currentBallot.n := by
        rcases valid.numbered with none | numbered
        · exact fresh none
        · rw [←led]
          exact Nat.le_trans numbered (number_of_le promised)
      exact lead_promised (pid.symm.trans own.symm) pid own valid.leader valid.stored valid.numbered fresh first
    · exact ⟨pid,own,valid.leader,valid.stored,valid.numbered,fresh⟩
  · obtain ⟨clock,same⟩ := tick_waiting closing
    rw [same]
    exact ⟨valid.pid,valid.own,valid.leader,valid.stored,valid.numbered,valid.fresh⟩

theorem restart_built {s next : OmniPaxos T} (ran : step s (.restart config clock) = some next) :
    config.build s.seqPaxos.internalStorage.storage clock = .ok next := by
  simp only [step] at ran
  split at ran
  · rename_i rebuilt built
    cases Option.some.inj ran
    exact built
  · cases ran

-- A rebuilt node has written back the promise it found, or the default one.
theorem build_stored {config : OmniPaxosConfig} {storage : MemoryStorage T Unit} {s : OmniPaxos T}
    (built : config.build storage clock = .ok s) : stored s = some (storage.nProm.getD {}) := by
  unfold OmniPaxosConfig.build at built
  split at built
  · cases built
  · unfold SequencePaxos.withStorage at built
    split at built
    · cases built
    · cases built
      obtain ⟨log,promise,_⟩ := storage
      cases promise <;> rfl

theorem build_promised {config : OmniPaxosConfig} {storage : MemoryStorage T Unit} {s : OmniPaxos T}
    (built : config.build storage clock = .ok s) (numbered : storage.nProm.getD {} = {} ∨ 1 ≤ (storage.nProm.getD {}).n) :
    Promised s := by
  obtain ⟨ble,pid,_,nLeader,promise⟩ := build_parts built
  obtain ⟨own,ballots⟩ := new_ballots config.bleConfig storage.nProm
  refine ⟨?_,?_,nLeader.trans promise.symm,?_,?_,?_⟩
  · rw [ble,pid]; rfl
  · rw [ble]; exact own
  · rw [promise]; exact build_stored built
  · rw [promise]; exact numbered
  · rw [promise,ble]
    intro none
    rcases ballots with ⟨_,_,initial⟩ | ⟨recovers,_⟩
    · exact Nat.le_of_eq initial.symm
    · exact absurd none recovers

theorem step_promised {s next : OmniPaxos T} (valid : Promised s) (ran : step s action = some next) : Promised next := by
  cases action with
  | tick => cases Option.some.inj ran; exact tick_promised valid
  | heartbeat m => cases Option.some.inj ran; exact heartbeat_promised valid m
  | tryBecomeLeader => cases Option.some.inj ran; exact tryBecomeLeader_promised valid
  | setPriority priority =>
    cases Option.some.inj ran
    exact ⟨valid.pid,valid.own,valid.leader,valid.stored,valid.numbered,valid.fresh⟩
  | restart config clock =>
    have kept : s.seqPaxos.internalStorage.storage.nProm = some s.seqPaxos.promise := valid.stored
    refine build_promised (restart_built ran) ?_
    rw [kept]
    exact valid.numbered

theorem handleLeader_follows {s : SequencePaxos T} {n : Ballot} (own : s.pid = n.pid) (promised : s.nLeader = s.promise) :
    (s.handleLeader n).promise = s.promise ∨ (s.promise < n ∧ (s.handleLeader n).promise = n) := by
  have promise := (handleLeader_own own promised).2.2.1
  rw [promise]
  split
  · exact .inr ⟨‹_›,rfl⟩
  · exact .inl rfl

theorem tick_promise {s : OmniPaxos T} (valid : Promised s) :
    s.tick.seqPaxos.promise = s.seqPaxos.promise ∨
    (s.seqPaxos.promise < s.tick.ble.leader ∧ s.tick.seqPaxos.promise = s.tick.ble.leader ∧
      s.tick.ble.leader = s.tick.ble.currentBallot) := by
  by_cases closing : Closing s
  · obtain ⟨clock,same⟩ := tick_timeout closing
    have closed := hbTimeout_closed s.ble s.seqPaxos.state s.seqPaxos.promise
    rw [same]
    generalize (s.ble.hbTimeout s.seqPaxos.state s.seqPaxos.promise).2 = ble at *
    have own : s.seqPaxos.pid = ble.currentBallot.pid :=
      valid.pid.symm.trans (closed.settles.own valid.own).symm
    split
    · rename_i led
      rcases handleLeader_follows own valid.leader with kept | ⟨more,taken⟩
      · exact .inl kept
      · refine .inr ⟨led ▸ more,?_,led⟩
        rw [led]
        exact taken
    · exact .inl rfl
  · obtain ⟨clock,same⟩ := tick_waiting closing
    rw [same]
    exact .inl rfl

theorem tryBecomeLeader_promise {s : OmniPaxos T} (valid : Promised s) :
    s.tryBecomeLeader.seqPaxos.promise = s.seqPaxos.promise ∨
    (s.seqPaxos.promise < s.tryBecomeLeader.seqPaxos.promise ∧
      s.tryBecomeLeader.seqPaxos.promise.n = s.seqPaxos.promise.n+1) := by
  have own : s.seqPaxos.pid = ({s.ble.currentBallot with n:=s.seqPaxos.promise.n+1} : Ballot).pid :=
    (valid.own.trans valid.pid).symm
  rcases handleLeader_follows own valid.leader with kept | ⟨more,taken⟩
  · exact .inl kept
  · exact .inr ⟨taken ▸ more,congrArg Ballot.n taken⟩

theorem step_promise {s next : OmniPaxos T} (valid : Promised s) (ran : step s action = some next) :
    s.seqPaxos.promise ≤ next.seqPaxos.promise := by
  cases action with
  | tick =>
    cases Option.some.inj ran
    rcases tick_promise valid with kept | ⟨more,taken,_⟩
    · rw [kept]
      exact ballot_le_refl _
    · rw [taken]
      exact ballot_le_of_lt more
  | heartbeat m => cases Option.some.inj ran; exact ballot_le_refl _
  | tryBecomeLeader =>
    cases Option.some.inj ran
    rcases tryBecomeLeader_promise valid with kept | ⟨more,_⟩
    · exact kept ▸ ballot_le_refl _
    · exact ballot_le_of_lt more
  | setPriority priority => cases Option.some.inj ran; exact ballot_le_refl _
  | restart config clock =>
    have kept : s.seqPaxos.internalStorage.storage.nProm = some s.seqPaxos.promise := valid.stored
    rw [(build_parts (restart_built ran)).2.2.2.2,kept]
    exact ballot_le_refl _

-- After an election timeout the election's leader has caught up with the promise.
theorem timeout_covers {s : OmniPaxos T} (valid : Promised s) (closing : Closing s) :
    s.tick.seqPaxos.promise ≤ s.tick.ble.leader := by
  rcases tick_promise valid with kept | ⟨_,taken,_⟩
  · rw [kept]
    obtain ⟨clock,same⟩ := tick_timeout closing
    rw [same]
    exact (timeout_leader s.ble s.seqPaxos.state s.seqPaxos.promise).2
  · rw [taken]
    exact ballot_le_refl _

-- A node that was rebuilt with the promise `b`: its leader is not below it, and
-- its own ballot and its promise either stand where the rebuild put them or
-- belong to later rounds.
structure Beyond (b : Ballot) (s : OmniPaxos T) : Prop where
  leader : b ≤ s.ble.leader
  current : b.n < s.ble.currentBallot.n ∨ s.ble.currentBallot.n = 0
  promise : s.seqPaxos.promise = b ∨ b.n < s.seqPaxos.promise.n

-- Once the own ballot leads, it is one of a later round.
theorem leads_beyond {b : Ballot} {ble : BallotLeaderElection} (numbered : 1 ≤ b.n) (leader : b ≤ ble.leader)
    (current : b.n < ble.currentBallot.n ∨ ble.currentBallot.n = 0) (led : ble.leader = ble.currentBallot) :
    b.n < ble.currentBallot.n := by
  rw [led] at leader
  have reached := number_of_le leader
  omega

theorem timeout_beyond {b : Ballot} {s : OmniPaxos T} (valid : Beyond b s) (state : Role × Phase) :
    b ≤ (s.ble.hbTimeout state s.seqPaxos.promise).2.leader ∧
    (b.n < (s.ble.hbTimeout state s.seqPaxos.promise).2.currentBallot.n ∨
      (s.ble.hbTimeout state s.seqPaxos.promise).2.currentBallot.n = 0) := by
  have raised := (timeout_leader s.ble state s.seqPaxos.promise).1 _ List.mem_cons_self
  refine ⟨ballot_le_trans valid.leader raised,?_⟩
  rcases timeout_current s.ble state s.seqPaxos.promise with same | above | ⟨behind,adopted⟩
  · rw [same]
    exact valid.current
  · exact .inl (Nat.lt_of_le_of_lt (number_of_le valid.leader) above)
  -- A promise above the leader is not the one the node was rebuilt with.
  · rw [adopted]
    rcases valid.promise with same | later
    · rw [same,lt_iff_rank] at behind
      exact absurd ((le_iff_rank ..).mp valid.leader) (not_le.mpr behind)
    · exact .inl later

-- A recovered promise leads at once, with the own ballot in the round before all.
theorem new_recovered (config : BLEConfig) {b : Ballot} (recovers : b ≠ {}) :
    (BallotLeaderElection.new config (some b)).leader = b ∧
    (BallotLeaderElection.new config (some b)).currentBallot.n = 0 := by
  constructor <;> simp only [BallotLeaderElection.new,if_neg recovers,BallotLeaderElection.newHbRound]

theorem restart_parts {s next : OmniPaxos T} (valid : Promised s) (ran : step s (.restart config clock) = some next)
    (recovers : s.seqPaxos.promise ≠ {}) : next.ble.leader = s.seqPaxos.promise ∧ next.ble.currentBallot.n = 0 ∧
    next.seqPaxos.promise = s.seqPaxos.promise := by
  obtain ⟨ble,_,_,_,promise⟩ := build_parts (restart_built ran)
  have kept : s.seqPaxos.internalStorage.storage.nProm = some s.seqPaxos.promise := valid.stored
  rw [kept] at ble promise
  rw [ble]
  exact ⟨(new_recovered _ recovers).1,(new_recovered _ recovers).2,promise⟩

theorem restart_beyond {s next : OmniPaxos T} (valid : Promised s) (ran : step s (.restart config clock) = some next)
    (recovers : s.seqPaxos.promise ≠ {}) : Beyond s.seqPaxos.promise next := by
  obtain ⟨leader,current,promise⟩ := restart_parts valid ran recovers
  exact ⟨leader ▸ ballot_le_refl _,.inr current,.inl promise⟩

theorem tick_beyond {b : Ballot} {s : OmniPaxos T} (promised : Promised s) (numbered : 1 ≤ b.n) (valid : Beyond b s) :
    Beyond b s.tick := by
  have election : b ≤ s.tick.ble.leader ∧ (b.n < s.tick.ble.currentBallot.n ∨ s.tick.ble.currentBallot.n = 0) := by
    by_cases closing : Closing s
    · obtain ⟨clock,same⟩ := tick_timeout closing
      rw [same]
      exact timeout_beyond valid s.seqPaxos.state
    · obtain ⟨clock,same⟩ := tick_waiting closing
      rw [same]
      exact ⟨valid.leader,valid.current⟩
  refine ⟨election.1,election.2,?_⟩
  rcases tick_promise promised with kept | ⟨_,taken,led⟩
  · rw [kept]
    exact valid.promise
  · rw [taken,led]
    exact .inr (leads_beyond numbered election.1 election.2 led)

theorem step_beyond {b : Ballot} {s next : OmniPaxos T} (promised : Promised s) (numbered : 1 ≤ b.n) (valid : Beyond b s)
    (ran : step s action = some next) : Beyond b next := by
  have reached : b.n ≤ s.seqPaxos.promise.n := by
    rcases valid.promise with same | later
    · exact Nat.le_of_eq (same ▸ rfl)
    · exact Nat.le_of_lt later
  cases action with
  | tick => cases Option.some.inj ran; exact tick_beyond promised numbered valid
  | heartbeat m =>
    cases Option.some.inj ran
    obtain ⟨replies,outgoing,same⟩ := handle_parts s.ble m
    rw [same]
    exact ⟨valid.leader,valid.current,valid.promise⟩
  | tryBecomeLeader =>
    cases Option.some.inj ran
    refine ⟨valid.leader,valid.current,?_⟩
    rcases tryBecomeLeader_promise promised with kept | ⟨_,number⟩
    · exact kept ▸ valid.promise
    · exact .inr (Nat.lt_of_lt_of_eq (Nat.lt_succ_of_le reached) number.symm)
  | setPriority priority => cases Option.some.inj ran; exact ⟨valid.leader,valid.current,valid.promise⟩
  -- A second restart puts the node where its present promise says.
  | restart config clock =>
    have recovers : s.seqPaxos.promise ≠ {} := by
      intro none
      rw [none] at reached
      exact absurd (Nat.le_trans numbered reached) (Nat.not_succ_le_zero 0)
    obtain ⟨leader,current,promise⟩ := restart_parts promised ran recovers
    refine ⟨?_,.inr current,promise ▸ valid.promise⟩
    rw [leader]
    rcases valid.promise with same | later
    · exact same ▸ ballot_le_refl _
    · exact ballot_le_of_lt (lt_of_number later)

-- What a timeout returns is the leader and the own ballot at once.
theorem returned_beyond {b n : Ballot} {s : OmniPaxos T} (numbered : 1 ≤ b.n) (valid : Beyond b s)
    (returned : (s.ble.hbTimeout s.seqPaxos.state s.seqPaxos.promise).1 = some n) : b < n := by
  have result := (hbTimeout_closed s.ble s.seqPaxos.state s.seqPaxos.promise).result
  obtain ⟨leader,current⟩ := timeout_beyond valid s.seqPaxos.state
  rw [returned] at result
  split at result
  · rename_i led
    cases Option.some.inj result
    exact lt_of_number (leads_beyond numbered leader current led)
  · cases result

theorem reaches_promised {config : OmniPaxosConfig} {storage : MemoryStorage T Unit} {first s : OmniPaxos T}
    (fresh : storage.nProm = none) (built : config.build storage clock = .ok first) (path : Reaches step first actions s) :
    Promised s :=
  path.invariant Promised (fun _ _ _ valid _ ran => step_promised valid ran) (build_promised built (.inl (fresh ▸ rfl)))

-- In every run from an empty storage the promise is one value, it only grows, the
-- election catches up with it at every timeout, and a node rebuilt on a promise
-- never stands for election again with a ballot up to that one.
theorem promise_recovery (config : OmniPaxosConfig) (storage : MemoryStorage T Unit) (clock : ClockState)
    (first s : OmniPaxos T) (actions : List Act) (fresh : storage.nProm = none)
    (built : config.build storage clock = .ok first) (path : Reaches step first actions s) :
    (stored s = some s.seqPaxos.promise ∧ s.seqPaxos.nLeader = s.seqPaxos.promise) ∧
    (∀ action next, step s action = some next →
      ∃ old promise, stored s = some old ∧ stored next = some promise ∧ old ≤ promise) ∧
    (Closing s → s.tick.seqPaxos.promise ≤ s.tick.ble.leader) ∧
    (∀ config clock next b, step s (.restart config clock) = some next → stored s = some b → b ≠ {} →
      ∀ later last, Reaches step next later last →
      ∀ n, (last.ble.hbTimeout last.seqPaxos.state last.seqPaxos.promise).1 = some n → b < n) := by
  have valid := reaches_promised fresh built path
  refine ⟨⟨valid.stored,valid.leader⟩,?_,timeout_covers valid,?_⟩
  · intro action next ran
    exact ⟨_,_,valid.stored,(step_promised valid ran).stored,step_promise valid ran⟩
  · intro config clock next b ran kept recovers later last onward n returned
    cases Option.some.inj (valid.stored.symm.trans kept)
    have numbered : 1 ≤ s.seqPaxos.promise.n := valid.numbered.resolve_left recovers
    have reached : Promised last ∧ Beyond s.seqPaxos.promise last :=
      onward.invariant (fun s' => Promised s' ∧ Beyond s.seqPaxos.promise s')
        (fun _ _ _ held _ ran => ⟨step_promised held.1 ran,step_beyond held.1 numbered held.2 ran⟩)
        ⟨step_promised valid ran,restart_beyond valid ran recovers⟩
    exact returned_beyond numbered reached.2 returned

-- A node that made itself leader is rebuilt, and hears from one that follows nobody.
theorem promise_recovery_restarted : ∃ s next last n, Reaches step (sampleNode 1) [.tryBecomeLeader] s ∧
    stored s = some ⟨1,1,0,1⟩ ∧
    step s (.restart (sampleConfig 1).omniPaxosConfig (sampleNode 1).seqPaxos.queue.clock) = some next ∧
    Reaches step next [.heartbeat ⟨2,1,.reply ⟨1,⟨1,1,0,2⟩,⟨1,1,0,1⟩,false⟩⟩] last ∧
    (last.ble.hbTimeout last.seqPaxos.state last.seqPaxos.promise).1 = some n ∧ (⟨1,1,0,1⟩ : Ballot) < n := by
  obtain ⟨last,path,returned⟩ := run_reaches step (fun _ _ => True)
    (fun s => (s.ble.hbTimeout s.seqPaxos.state s.seqPaxos.promise).1 = some ⟨1,2,0,1⟩) (sampleNode 1)
    [.tryBecomeLeader,.restart (sampleConfig 1).omniPaxosConfig (sampleNode 1).seqPaxos.queue.clock,
      .heartbeat ⟨2,1,.reply ⟨1,⟨1,1,0,2⟩,⟨1,1,0,1⟩,false⟩⟩] (by decide +kernel)
  obtain ⟨_,s,led,path⟩ := path.cons
  obtain ⟨_,next,rebuilt,onward⟩ := path.cons
  have first : Reaches step (sampleNode 1) [.tryBecomeLeader] s := .snoc .nil trivial led
  have kept : stored s = some ⟨1,1,0,1⟩ := by
    cases Option.some.inj led
    decide +kernel
  have built := build_server (sampleConfig 1) 0 rfl (by decide)
  exact ⟨s,next,last,_,first,kept,rebuilt,onward,returned,
    (promise_recovery _ _ _ _ s _ rfl built first).2.2.2 _ _ next _ rebuilt kept (by decide) _ last onward _ returned⟩

end OmniPaxosKV.Recovery

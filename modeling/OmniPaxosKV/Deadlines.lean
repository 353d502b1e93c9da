import OmniPaxosKV.Appending
import OmniPaxosKV.Custody

-- When a request may reach the log: a tick of the clock after the waiter took it
-- has seen its deadline pass.
namespace OmniPaxosKV.Deadlines
open Machine Transitions Speculation
open Custody (held)
open Execution (sampleServer)
open ReleaseOrder (Waits wait_sound)

-- The deadlines a tick lets go of are those registered and strictly in the past.
theorem processDeadlines_past (fuel : Nat) (c : ClockState) :
    (∀ ch ∈ (c.processDeadlines fuel).2, ∃ deadline, c.database deadline = some ch ∧ deadline < c.logicalTime) ∧
    (∀ deadline ch, (c.processDeadlines fuel).1.database deadline = some ch → c.database deadline = some ch) ∧
    (c.processDeadlines fuel).1.logicalTime = c.logicalTime := by
  induction fuel generalizing c with
  | zero => exact ⟨nofun,fun _ _ known => known,rfl⟩
  | succ fuel ih =>
    unfold ClockState.processDeadlines
    split
    · exact ⟨nofun,fun _ _ known => known,rfl⟩
    · rename_i first rest popped
      split
      · rename_i past
        obtain ⟨fired,kept,time⟩ := ih {c with deadlines:=rest,database:=c.database.remove first}
        have older : ∀ deadline ch, c.database.remove first deadline = some ch → c.database deadline = some ch := by
          intro deadline ch known
          rw [KeyMap.remove_apply] at known
          split at known
          · cases known
          · exact known
        refine ⟨?_,fun deadline ch known => older deadline ch (kept deadline ch known),time⟩
        intro ch member
        rcases List.mem_append.mp member with own | other
        · exact ⟨first,Option.mem_toList.mp own,past⟩
        · obtain ⟨deadline,known,before⟩ := fired ch other
          exact ⟨deadline,older deadline ch known,before⟩
      · exact ⟨nofun,fun _ _ known => known,rfl⟩

theorem tick_past (c : ClockState) (fast : Bool) :
    (∀ ch ∈ (c.tick fast).2.1, ∃ deadline, c.database deadline = some ch ∧ deadline < (c.tick fast).1.logicalTime) ∧
    ∀ deadline ch, (c.tick fast).1.database deadline = some ch → c.database deadline = some ch := by
  dsimp only [ClockState.tick]
  generalize (if fast then Duration.fromMillis 1+c.drift else Duration.fromMillis 1-c.drift) = elapsed
  obtain ⟨fired,kept,time⟩ := processDeadlines_past c.deadlines.length
    {c with counter:=c.counter+1,logicalTime:=c.logicalTime+elapsed}
  split
  · exact ⟨fun ch member => time ▸ fired ch member,kept⟩
  · exact ⟨fun ch member => time ▸ fired ch member,kept⟩

-- What every step but the waiter's and the clock's leaves alone.
structure Still {R : Type} (q next : Queue R) : Prop where
  waiter : next.waiter = q.waiter
  released : next.released = q.released
  fired : next.fired = q.fired
  database : next.clock.database = q.clock.database
  channel : q.nextChannel ≤ next.nextChannel

theorem Still.refl {R : Type} (q : Queue R) : Still q q := ⟨rfl,rfl,rfl,rfl,Nat.le_refl _⟩

theorem appendReleased_queue (s : SequencePaxos Command) : (s.appendReleased hasher req speculation).1.queue = s.queue := by
  unfold SequencePaxos.appendReleased
  split <;> rfl

theorem advance_still {s next : SequencePaxos Command} (ran : s.advance hasher now task = some (next,task')) :
    Still s.queue next.queue := by
  cases task with
  | insert entry imLeader speculation =>
    simp only [SequencePaxos.advance] at ran
    have still : Still s.queue (s.queue.insert entry imLeader).1 := ⟨rfl,rfl,rfl,rfl,Nat.le_succ _⟩
    split at ran
    all_goals
      rename_i inserted
      rw [inserted] at still
      cases Option.some.inj ran
      exact still
  | sendMasterTime t =>
    simp only [SequencePaxos.advance] at ran
    split at ran
    · cases Option.some.inj ran; exact ⟨rfl,rfl,rfl,rfl,Nat.le_refl _⟩
    · cases ran
  | awaitRelease entryId notifier speculation =>
    simp only [SequencePaxos.advance] at ran
    split at ran
    · have same := congrArg Prod.fst (Option.some.inj ran)
      rw [←show _ = next from same,appendReleased_queue]
      exact .refl _
    · split at ran
      · cases Option.some.inj ran; exact .refl _
      · cases ran
  | syncStart =>
    simp only [SequencePaxos.advance] at ran
    split at ran <;> cases Option.some.inj ran <;> exact .refl _
  | syncWait t0 =>
    simp only [SequencePaxos.advance] at ran
    split at ran
    · cases Option.some.inj ran; exact .refl _
    · split at ran
      · cases ran
      · cases Option.some.inj ran; exact ⟨rfl,rfl,rfl,rfl,Nat.le_refl _⟩
  | finished => cases ran
  | panicked => cases ran
  | _ => cases Option.some.inj ran; exact ⟨rfl,rfl,rfl,rfl,Nat.le_refl _⟩

theorem runTask_still {s next : SequencePaxos Command} (ran : s.runTask hasher place now = some next) :
    Still s.queue next.queue := by
  unfold SequencePaxos.runTask at ran
  split at ran
  · cases ran
  · split at ran
    · cases ran
    · rename_i advanced
      obtain ⟨waiter,released,fired,database,channel⟩ := advance_still advanced
      cases Option.some.inj ran
      exact ⟨waiter,released,fired,database,channel⟩

-- The steps of a replica as the waiter and the clock see them.
theorem step_queue {s next : Server} (ran : s.step hasher action = some next) :
    (action = .wait ∧ Waits s.seqPaxos.queue next.seqPaxos.queue) ∨
    (∃ fast, action = .clockTick fast ∧ next.seqPaxos.queue = (s.seqPaxos.queue.tick fast).1) ∨
    Still s.seqPaxos.queue next.seqPaxos.queue := by
  cases step_sound ran with
  | wait waits => exact .inl ⟨rfl,waits⟩
  -- The rules for tasks and ticks do not say what happens to the clock.
  | task =>
    simp only [Server.step] at ran
    split at ran
    · cases ran
    · obtain ⟨paxos,moved,same⟩ := Option.map_eq_some_iff.mp ran
      rw [←same]
      exact .inr (.inr (runTask_still moved))
  | clockTick | clockSync =>
    simp only [Server.step] at ran
    split at ran
    · cases ran
    · rw [←Option.some.inj ran]
      refine .inr (.inl ⟨_,rfl,?_⟩)
      unfold Server.withPaxos SequencePaxos.clockTick
      dsimp only [Server.seqPaxos]
      split <;> rfl
  | elect _ _ _ _ n =>
    have same : (s.seqPaxos.handleLeader n).queue = s.seqPaxos.queue := by
      unfold SequencePaxos.handleLeader
      split
      · rfl
      · split <;> rfl
    exact .inr (.inr (same ▸ .refl _))
  | reconnect =>
    exact .inr (.inr ((History.sameButRole_reconnected s.seqPaxos _).queue ▸ .refl _))
  | _ => exact .inr (.inr (.refl _))

section Run
variable (hasher : List UInt8 → UInt64) (origin : Server)

-- The waiter took the request from the early buffer.
def Popped (req : Command) : List Server.Act → Server → Prop :=
  Past (Server.step hasher) origin fun _ before action after => action = .wait ∧
    before.seqPaxos.queue.waiter = .idle ∧ ∃ sender, after.seqPaxos.queue.waiter = .popped sender req

-- After that, a tick found the logical time beyond the request's deadline.
def Overdue (req : Command) : List Server.Act → Server → Prop :=
  Past (Server.step hasher) origin fun earlier before action after => Popped hasher origin req earlier before ∧
    (∃ fast, action = .clockTick fast) ∧ req.deadline < after.seqPaxos.queue.clock.logicalTime

structure Punctual (actions : List Server.Act) (s : Server) : Prop where
  known : ∀ deadline ch, s.seqPaxos.queue.clock.database deadline = some ch → ch < s.seqPaxos.queue.nextChannel
  fired : ∀ ch ∈ s.seqPaxos.queue.fired, ch < s.seqPaxos.queue.nextChannel
  popped : ∀ sender req, held s.seqPaxos.queue.waiter = some (sender,req) → Popped hasher origin req actions s
  registered : ∀ sender req ch, s.seqPaxos.queue.waiter = .waiting sender req ch → ch < s.seqPaxos.queue.nextChannel ∧
    ∀ deadline, s.seqPaxos.queue.clock.database deadline = some ch → deadline = req.deadline
  overdue : ∀ sender req ch, s.seqPaxos.queue.waiter = .waiting sender req ch → ch ∈ s.seqPaxos.queue.fired →
    Overdue hasher origin req actions s
  released : ∀ tx req, (tx,req) ∈ s.seqPaxos.queue.released → Overdue hasher origin req actions s

variable {hasher origin}

theorem punctual_still {s next : Server} (punctual : Punctual hasher origin actions s)
    (still : Still s.seqPaxos.queue next.seqPaxos.queue) (ran : s.step hasher action = some next) :
    Punctual hasher origin (actions++[action]) next := by
  refine ⟨?_,?_,?_,?_,?_,?_⟩
  · rw [still.database]
    exact fun deadline ch known => Nat.lt_of_lt_of_le (punctual.known deadline ch known) still.channel
  · rw [still.fired]
    exact fun ch member => Nat.lt_of_lt_of_le (punctual.fired ch member) still.channel
  · rw [still.waiter]
    exact fun sender req taken => (punctual.popped sender req taken).snoc ran
  · rw [still.waiter,still.database]
    intro sender req ch waits
    obtain ⟨bound,only⟩ := punctual.registered sender req ch waits
    exact ⟨Nat.lt_of_lt_of_le bound still.channel,only⟩
  · rw [still.waiter,still.fired]
    exact fun sender req ch waits member => (punctual.overdue sender req ch waits member).snoc ran
  · rw [still.released]
    exact fun tx req member => (punctual.released tx req member).snoc ran

-- A channel that this tick notifies was registered under the deadline of the
-- request the waiter holds, and the tick has just passed that deadline.
theorem punctual_tick {s next : Server} (path : Reaches (Server.step hasher) origin actions s)
    (punctual : Punctual hasher origin actions s) (ran : s.step hasher (.clockTick fast) = some next)
    (ticked : next.seqPaxos.queue = (s.seqPaxos.queue.tick fast).1) :
    Punctual hasher origin (actions++[.clockTick fast]) next := by
  obtain ⟨past,kept⟩ := tick_past s.seqPaxos.queue.clock fast
  have waiter : next.seqPaxos.queue.waiter = s.seqPaxos.queue.waiter := ticked ▸ rfl
  have released : next.seqPaxos.queue.released = s.seqPaxos.queue.released := ticked ▸ rfl
  have channel : next.seqPaxos.queue.nextChannel = s.seqPaxos.queue.nextChannel := ticked ▸ rfl
  have clock : next.seqPaxos.queue.clock = (s.seqPaxos.queue.clock.tick fast).1 := ticked ▸ rfl
  have fired : next.seqPaxos.queue.fired = s.seqPaxos.queue.fired++(s.seqPaxos.queue.clock.tick fast).2.1 := ticked ▸ rfl
  refine ⟨?_,?_,?_,?_,?_,?_⟩
  · rw [clock,channel]
    exact fun deadline ch known => punctual.known deadline ch (kept deadline ch known)
  · rw [fired,channel]
    intro ch member
    rcases List.mem_append.mp member with old | new
    · exact punctual.fired ch old
    · obtain ⟨deadline,known,_⟩ := past ch new
      exact punctual.known deadline ch known
  · rw [waiter]
    exact fun sender req taken => (punctual.popped sender req taken).snoc ran
  · rw [waiter,clock,channel]
    intro sender req ch waits
    obtain ⟨bound,only⟩ := punctual.registered sender req ch waits
    exact ⟨bound,fun deadline known => only deadline (kept deadline ch known)⟩
  · rw [waiter,fired]
    intro sender req ch waits member
    rcases List.mem_append.mp member with old | new
    · exact (punctual.overdue sender req ch waits old).snoc ran
    · obtain ⟨deadline,known,before⟩ := past ch new
      have own : deadline = req.deadline := (punctual.registered sender req ch waits).2 deadline known
      have taken : held s.seqPaxos.queue.waiter = some (sender,req) := by rw [waits]; rfl
      refine Past.last path ran ⟨punctual.popped sender req taken,⟨fast,rfl⟩,?_⟩
      rw [clock,←own]
      exact before
  · rw [released]
    exact fun tx req member => (punctual.released tx req member).snoc ran

-- A step of the waiter that leaves the clock alone and does not end in a wait.
theorem punctual_hand {s next : Server} (punctual : Punctual hasher origin actions s)
    (ran : s.step hasher .wait = some next) (clock : next.seqPaxos.queue.clock = s.seqPaxos.queue.clock)
    (fired : next.seqPaxos.queue.fired = s.seqPaxos.queue.fired)
    (channel : next.seqPaxos.queue.nextChannel = s.seqPaxos.queue.nextChannel)
    (free : ∀ sender req ch, next.seqPaxos.queue.waiter ≠ .waiting sender req ch)
    (popped : ∀ sender req, next.seqPaxos.queue.waiter = .popped sender req →
      Popped hasher origin req (actions++[.wait]) next)
    (released : ∀ tx req, (tx,req) ∈ next.seqPaxos.queue.released → (tx,req) ∈ s.seqPaxos.queue.released ∨
      Overdue hasher origin req actions s) : Punctual hasher origin (actions++[.wait]) next := by
  refine ⟨?_,?_,?_,?_,?_,?_⟩
  · rw [clock,channel]
    exact punctual.known
  · rw [fired,channel]
    exact punctual.fired
  · intro sender req taken
    cases stands : next.seqPaxos.queue.waiter with
    | idle => rw [stands] at taken; cases taken
    | popped => rw [stands] at taken; cases taken; exact popped _ _ stands
    | waiting => exact absurd stands (free _ _ _)
  · exact fun sender req ch waits => absurd waits (free sender req ch)
  · exact fun sender req ch waits => absurd waits (free sender req ch)
  · intro tx req member
    rcases released tx req member with old | overdue
    · exact (punctual.released tx req old).snoc ran
    · exact overdue.snoc ran

-- The waiter registers under the deadline of the request it holds, on a channel
-- that neither the clock nor the record of notifications has seen.
theorem punctual_register {s next : Server} (punctual : Punctual hasher origin actions s)
    (ran : s.step hasher .wait = some next) (taken : s.seqPaxos.queue.waiter = .popped sender req)
    (waiter : next.seqPaxos.queue.waiter = .waiting sender req s.seqPaxos.queue.nextChannel)
    (database : next.seqPaxos.queue.clock.database =
      s.seqPaxos.queue.clock.database.insert req.deadline s.seqPaxos.queue.nextChannel)
    (fired : next.seqPaxos.queue.fired = s.seqPaxos.queue.fired)
    (channel : next.seqPaxos.queue.nextChannel = s.seqPaxos.queue.nextChannel+1)
    (released : next.seqPaxos.queue.released = s.seqPaxos.queue.released) :
    Punctual hasher origin (actions++[.wait]) next := by
  have known : ∀ deadline ch, s.seqPaxos.queue.clock.database.insert req.deadline s.seqPaxos.queue.nextChannel deadline =
      some ch → (deadline = req.deadline ∧ ch = s.seqPaxos.queue.nextChannel) ∨ ch < s.seqPaxos.queue.nextChannel := by
    intro deadline ch found
    rw [KeyMap.insert_apply] at found
    split at found
    · rename_i same
      exact .inl ⟨same,(Option.some.inj found).symm⟩
    · exact .inr (punctual.known deadline ch found)
  refine ⟨?_,?_,?_,?_,?_,?_⟩
  · rw [database,channel]
    intro deadline ch found
    rcases known deadline ch found with ⟨_,rfl⟩ | older
    · exact Nat.lt_succ_self _
    · exact Nat.lt_succ_of_lt older
  · rw [fired,channel]
    exact fun ch member => Nat.lt_succ_of_lt (punctual.fired ch member)
  · rw [waiter]
    intro sender' req' same
    cases same
    have holding : held s.seqPaxos.queue.waiter = some (sender,req) := by rw [taken]; rfl
    exact (punctual.popped sender req holding).snoc ran
  · rw [waiter,database,channel]
    intro sender' req' ch same
    cases same
    refine ⟨Nat.lt_succ_self _,fun deadline found => ?_⟩
    rcases known deadline _ found with ⟨same,_⟩ | older
    · exact same
    · exact absurd older (Nat.lt_irrefl _)
  · rw [waiter,fired]
    intro sender' req' ch same member
    cases same
    exact absurd (punctual.fired _ member) (Nat.lt_irrefl _)
  · rw [released]
    exact fun tx req member => (punctual.released tx req member).snoc ran

theorem punctual_waits {s next : Server} (path : Reaches (Server.step hasher) origin actions s)
    (punctual : Punctual hasher origin actions s) (ran : s.step hasher .wait = some next)
    (waits : Waits s.seqPaxos.queue next.seqPaxos.queue) : Punctual hasher origin (actions++[.wait]) next := by
  generalize moved : next.seqPaxos.queue = queue at waits
  cases waits with
  | pop idle popped =>
    refine punctual_hand punctual ran (moved ▸ rfl) (moved ▸ rfl) (moved ▸ rfl) ?_ ?_ ?_
    · rw [moved]
      exact nofun
    · intro sender req taken
      exact Past.last path ran ⟨rfl,idle,sender,taken⟩
    · rw [moved]
      exact fun tx req member => .inl member
  | register taken added =>
    rename_i clock overwritten sender req
    have database : s.seqPaxos.queue.clock.database.insert req.deadline s.seqPaxos.queue.nextChannel = clock.database :=
      congrArg (fun pair => pair.1.database) added
    exact punctual_register punctual ran taken (moved ▸ rfl) (moved ▸ database.symm) (moved ▸ rfl) (moved ▸ rfl)
      (moved ▸ rfl)
  | release taken notified =>
    refine punctual_hand punctual ran (moved ▸ rfl) (moved ▸ rfl) (moved ▸ rfl) ?_ ?_ ?_
    · rw [moved]
      exact nofun
    · rw [moved]
      exact nofun
    · rw [moved]
      intro tx req member
      rcases List.mem_append.mp member with old | new
      · exact .inl old
      · cases List.mem_singleton.mp new
        exact .inr (punctual.overdue _ _ _ taken notified)
  | unsynchronized | lose =>
    refine punctual_hand punctual ran (moved ▸ rfl) (moved ▸ rfl) (moved ▸ rfl) ?_ ?_ ?_
    · rw [moved]
      exact nofun
    · rw [moved]
      exact nofun
    · rw [moved]
      exact fun tx req member => .inl member

theorem punctual_step {s next : Server} (path : Reaches (Server.step hasher) origin actions s)
    (punctual : Punctual hasher origin actions s) (ran : s.step hasher action = some next) :
    Punctual hasher origin (actions++[action]) next := by
  rcases step_queue ran with ⟨rfl,waits⟩ | ⟨fast,rfl,ticked⟩ | still
  · exact punctual_waits path punctual ran waits
  · exact punctual_tick path punctual ran ticked
  · exact punctual_still punctual still ran

end Run

theorem punctual_new (config : ServerConfig) (now : SystemTime) : Punctual hasher (.new config now) [] (.new config now) :=
  ⟨nofun,nofun,nofun,nofun,nofun,nofun⟩

theorem reaches_punctual (path : Reaches (Server.step hasher) (.new config now) actions s) :
    Punctual hasher (.new config now) actions s :=
  path.recorded (Punctual hasher (.new config now)) (fun _ _ _ _ path punctual ran => punctual_step path punctual ran)
    (punctual_new config now)

-- A task appends what the waiter released to it.
theorem appends_released {s : Server} (appended : appends s action = some req) :
    ∃ tx, (tx,req) ∈ s.seqPaxos.queue.released := by
  cases action with
  | task place now =>
    obtain ⟨task,_,released⟩ := Option.bind_eq_some_iff.mp appended
    cases task with
    | awaitRelease entryId notifier speculation =>
      obtain ⟨before,after,same,_⟩ := List.lookup_eq_some_iff.mp released
      exact ⟨notifier,same ▸ List.mem_append_right _ List.mem_cons_self⟩
    | _ => cases released
  | _ => cases appended

theorem reaches_storing (path : Reaches (Server.step hasher) (.new config now) actions s) :
    History.Storing hasher s.seqPaxos :=
  path.invariant (fun s => History.Storing hasher s.seqPaxos)
    (fun _ _ _ storing _ ran => History.storing_step storing (step_sound ran)) History.storing_new

-- Whatever a step of a run adds to the log was overdue by then.
theorem no_early_release (hasher : List UInt8 → UInt64) (config : ServerConfig) (now : SystemTime)
    (actions : List Server.Act) (s next : Server) (action : Server.Act)
    (path : Reaches (Server.step hasher) (.new config now) actions s) (ran : s.step hasher action = some next) :
    next.log = s.log ∨ ∃ req, next.log = s.log++[req] ∧ Overdue hasher (.new config now) req actions s := by
  rcases Appending.step_log (reaches_storing path) (step_sound ran) with ⟨same,_⟩ | ⟨req,_,appended,more,_⟩
  · exact .inl same
  · obtain ⟨tx,released⟩ := appends_released appended
    exact .inr ⟨req,more,(reaches_punctual path).released tx req released⟩

-- A follower's first request: twenty-one ticks carry the clock past its deadline.
def firstReleased : List Server.Act :=
  [Server.Act.client 1 (.append 0 (.put "x" "1")),.task 0 0,.wait,.wait]++
  List.replicate 21 (Server.Act.clockTick true)++[Server.Act.wait]

theorem no_early_release_first : ∃ s next req, Reaches (Server.step SipHash.hash) sampleServer firstReleased s ∧
    s.step SipHash.hash (.task 0 0) = some next ∧ next.log = s.log++[req] ∧
    Overdue SipHash.hash sampleServer req firstReleased s := by
  obtain ⟨s,path,grows⟩ := run_reaches (Server.step SipHash.hash) (fun _ _ => True)
    (fun s => (s.step SipHash.hash (.task 0 0)).any (fun next => decide (next.log ≠ s.log)) = true) sampleServer
    firstReleased (by decide +kernel)
  obtain ⟨next,ran,differs⟩ := (Option.any_eq_true ..).mp grows
  have released := no_early_release SipHash.hash _ _ firstReleased s next (.task 0 0) path ran
  obtain ⟨req,log,overdue⟩ := released.resolve_left (of_decide_eq_true differs)
  exact ⟨s,next,req,path,ran,log,overdue⟩

end OmniPaxosKV.Deadlines

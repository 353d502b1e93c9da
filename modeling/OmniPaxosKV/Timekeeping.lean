import OmniPaxosKV.Clock
import OmniPaxosKV.Machine

-- The clock of one replica over a whole run of its tick loop and of syncs that come back.
namespace OmniPaxosKV

-- Beside the clock: what it was last set to, which way it drifted at each tick since,
-- and how many deadlines were registered with it.
structure Timekeeping where
  clock : ClockState
  base : SystemTime
  ticks : List Bool := []
  registered : Nat := 0

namespace Timekeeping
open Machine

def new (master : NodeId) (drift uncertainty : Duration) (syncFreq : Nat) (now : SystemTime) : Timekeeping :=
  {clock:=.new master drift uncertainty syncFreq now,base:=now}

inductive Act where
  | tick (fast : Bool)
  | resync (realTime : SystemTime)
  | addDeadline (deadline : SystemTime)

-- A sync that a tick starts comes back, if at all, as a `resync` at any later time.
def step (s : Timekeeping) : Act → Option Timekeeping
  | .tick fast => some {s with clock:=(s.clock.tick fast).1,ticks:=s.ticks++[fast]}
  | .resync realTime => some {s with clock:=s.clock.resync realTime,base:=realTime,ticks:=[]}
  | .addDeadline deadline =>
    some {s with clock:=(s.clock.addDeadline deadline s.registered).1,registered:=s.registered+1}

theorem processDeadlines_frame (fuel : Nat) (c : ClockState) : ∃ deadlines database,
    (c.processDeadlines fuel).1 = {c with deadlines:=deadlines,database:=database} := by
  induction fuel generalizing c with
  | zero => exact ⟨_,_,rfl⟩
  | succ fuel ih =>
    unfold ClockState.processDeadlines
    split
    · exact ⟨_,_,rfl⟩
    · rename_i first rest popped
      split
      · obtain ⟨deadlines,database,same⟩ := ih {c with deadlines:=rest,database:=c.database.remove first}
        exact ⟨deadlines,database,same⟩
      · exact ⟨_,_,rfl⟩

def elapsed (drift : Duration) (fast : Bool) : Nat :=
  if fast then Duration.fromMillis 1+drift else Duration.fromMillis 1-drift

-- A tick is its processing, but for the counter.
theorem tick_eq (c : ClockState) (fast : Bool) :
    let processed := ({c with counter:=c.counter+1,logicalTime:=c.logicalTime+elapsed c.drift fast} :
      ClockState).processDeadlines c.deadlines.length
    (c.tick fast).2.1 = processed.2 ∧
    (c.tick fast).1 = {processed.1 with counter:=if c.syncFreq ≤ c.counter+1 then 0 else c.counter+1} := by
  obtain ⟨deadlines,database,same⟩ := processDeadlines_frame c.deadlines.length
    {c with counter:=c.counter+1,logicalTime:=c.logicalTime+elapsed c.drift fast}
  dsimp only [ClockState.tick]
  rw [show (if fast = true then Duration.fromMillis 1+c.drift else Duration.fromMillis 1-c.drift) = elapsed c.drift fast
    from rfl,same]
  dsimp only
  split <;> exact ⟨rfl,rfl⟩

theorem tick_fields (c : ClockState) (fast : Bool) :
    (c.tick fast).1.drift = c.drift ∧ (c.tick fast).1.uncertainty = c.uncertainty ∧
    (c.tick fast).1.syncFreq = c.syncFreq ∧ (c.tick fast).1.logicalTime = c.logicalTime+elapsed c.drift fast ∧
    (c.tick fast).1.counter = if c.syncFreq ≤ c.counter+1 then 0 else c.counter+1 := by
  obtain ⟨deadlines,database,same⟩ := processDeadlines_frame c.deadlines.length
    {c with counter:=c.counter+1,logicalTime:=c.logicalTime+elapsed c.drift fast}
  have whole := (tick_eq c fast).2
  dsimp only at whole
  rw [same] at whole
  rw [whole]
  exact ⟨rfl,rfl,rfl,rfl,rfl⟩

section Uncertainty

-- How far the ticks since the last resync took the clock ahead and behind. A drift
-- beyond the step of one millisecond cannot take it back by more than the step.
def ahead (drift : Duration) (ticks : List Bool) : Nat := ticks.count true*drift
def behind (drift : Duration) (ticks : List Bool) : Nat := ticks.count false*min drift (Duration.fromMillis 1)

def Within (bound : Duration) (a b : Nat) : Prop := a ≤ b+bound ∧ b ≤ a+bound

instance (bound : Duration) (a b : Nat) : Decidable (Within bound a b) := inferInstanceAs (Decidable (_ ∧ _))

-- The clock is within its uncertainty of real time, as counted from the last resync.
def Certain (s : Timekeeping) : Prop :=
  Within s.clock.getUncertainty s.clock.logicalTime (s.base+Duration.fromMillis s.ticks.length)

instance (s : Timekeeping) : Decidable (Certain s) := inferInstanceAs (Decidable (Within _ _ _))

-- A tick that reaches the sync frequency leaves the counter at zero: the drift since
-- the last resync has to fit into the fixed part of the uncertainty.
def Covered (s : Timekeeping) : Act → Prop
  | .tick fast => s.clock.syncFreq ≤ s.clock.counter+1 →
      Within s.clock.uncertainty (ahead s.clock.drift (s.ticks++[fast])) (behind s.clock.drift (s.ticks++[fast]))
  | _ => True

instance (s : Timekeeping) : (action : Act) → Decidable (Covered s action)
  | .tick _ => inferInstanceAs (Decidable (_ → _))
  | .resync _ => .isTrue trivial
  | .addDeadline _ => .isTrue trivial

-- What the clock shows, from what it was set to and how it ticked since.
def Kept (s : Timekeeping) : Prop :=
  behind s.clock.drift s.ticks+s.clock.logicalTime =
    ahead s.clock.drift s.ticks+(s.base+Duration.fromMillis s.ticks.length)

theorem elapsed_slow (drift : Duration) :
    elapsed drift false+min drift (Duration.fromMillis 1) = Duration.fromMillis 1 := by
  unfold elapsed
  simp only [Bool.false_eq_true,if_false]
  omega

theorem ahead_tick (drift : Duration) (ticks : List Bool) (fast : Bool) :
    ahead drift (ticks++[fast]) = ahead drift ticks+if fast then drift else 0 := by
  unfold ahead
  cases fast <;> simp [List.count_append,Nat.add_mul]

theorem behind_tick (drift : Duration) (ticks : List Bool) (fast : Bool) :
    behind drift (ticks++[fast]) = behind drift ticks+if fast then 0 else min drift (Duration.fromMillis 1) := by
  unfold behind
  cases fast <;> simp [List.count_append,Nat.add_mul]

theorem fromMillis_succ (n : Nat) : Duration.fromMillis (n+1) = Duration.fromMillis n+Duration.fromMillis 1 :=
  Nat.add_mul n 1 _

theorem fresh_kept {s : Timekeeping} (ticks : s.ticks = []) (set : s.clock.logicalTime = s.base) : Kept s := by
  simp [Kept,ticks,set,ahead,behind,Duration.fromMillis]

theorem step_kept {s next : Timekeeping} (kept : Kept s) (ran : s.step action = some next) :
    Kept next ∧ next.clock.drift = s.clock.drift := by
  cases action with
  | tick fast =>
    cases Option.some.inj ran
    obtain ⟨drift,_,_,time,_⟩ := tick_fields s.clock fast
    refine ⟨?_,drift⟩
    unfold Kept at kept ⊢
    have length : (s.ticks++[fast]).length = s.ticks.length+1 := List.length_append
    rw [drift,time,ahead_tick,behind_tick,length,fromMillis_succ s.ticks.length]
    cases fast with
    | false =>
      have slow := elapsed_slow s.clock.drift
      simp only [Bool.false_eq_true,if_false]
      omega
    | true =>
      simp only [elapsed,if_true]
      omega
  | resync realTime =>
    cases Option.some.inj ran
    exact ⟨fresh_kept rfl rfl,rfl⟩
  | addDeadline deadline =>
    cases Option.some.inj ran
    exact ⟨kept,rfl⟩

theorem new_kept (master : NodeId) (drift uncertainty : Duration) (syncFreq : Nat) (now : SystemTime) :
    Kept (new master drift uncertainty syncFreq now) := fresh_kept rfl rfl

-- Being certain is a matter of the drift alone.
theorem Kept.certain_iff {s : Timekeeping} (kept : Kept s) : Certain s ↔
    Within s.clock.getUncertainty (ahead s.clock.drift s.ticks) (behind s.clock.drift s.ticks) := by
  unfold Kept at kept
  unfold Certain Within
  omega

theorem step_certain_iff {s next : Timekeeping} (kept : Kept s) (certain : Certain s) (ran : s.step action = some next) :
    Certain next ↔ Covered s action := by
  have kept' := (step_kept kept ran).1
  cases action with
  | tick fast =>
    cases Option.some.inj ran
    obtain ⟨drift,uncertainty,_,_,counter⟩ := tick_fields s.clock fast
    rw [kept.certain_iff] at certain
    rw [kept'.certain_iff]
    simp only [ClockState.getUncertainty,drift,uncertainty,counter,Covered] at certain ⊢
    by_cases reached : s.clock.syncFreq ≤ s.clock.counter+1
    · simp only [if_pos reached,Nat.zero_mul,Nat.add_zero]
      exact ⟨fun within _ => within,fun covered => covered reached⟩
    · -- One more count covers one more drift, whichever way it went.
      simp only [if_neg reached,Nat.add_mul,Nat.one_mul,ahead_tick,behind_tick]
      refine iff_of_true ?_ (fun wrong => absurd wrong reached)
      unfold Within at certain ⊢
      have small : min s.clock.drift (Duration.fromMillis 1) ≤ s.clock.drift := Nat.min_le_left ..
      split <;> omega
  | resync realTime =>
    cases Option.some.inj ran
    refine iff_of_true ?_ trivial
    simp [Certain,Within,ClockState.resync,Duration.fromMillis]
  | addDeadline deadline =>
    cases Option.some.inj ran
    exact iff_of_true certain trivial

section Runs
variable (master : NodeId) (drift uncertainty : Duration) (syncFreq : Nat) (now : SystemTime)

theorem runs_kept {s : Timekeeping} (path : Reaches step (new master drift uncertainty syncFreq now) actions s) :
    Kept s ∧ s.clock.drift = drift := by
  refine path.invariant (fun s => Kept s ∧ s.clock.drift = drift) ?_ ⟨new_kept ..,rfl⟩
  intro s action next known _ ran
  have moved := step_kept known.1 ran
  exact ⟨moved.1,moved.2.trans known.2⟩

-- Ticks that all go the same way, with no resync: the counter starts again at
-- every sync, and the drift does not.
theorem fast_ticks (n : Nat) : ∃ s, Reaches step (new master drift uncertainty syncFreq now)
    (List.replicate n (.tick true)) s ∧ s.ticks = List.replicate n true ∧ s.clock.uncertainty = uncertainty ∧
    s.clock.syncFreq = syncFreq ∧ s.clock.counter = n%max 1 syncFreq := by
  induction n with
  | zero => exact ⟨_,.nil,rfl,rfl,rfl,(Nat.zero_mod _).symm⟩
  | succ n ih =>
    obtain ⟨s,path,ticks,fixed,frequency,counter⟩ := ih
    obtain ⟨_,fixed',frequency',_,counter'⟩ := tick_fields s.clock true
    rw [List.replicate_succ',List.replicate_succ']
    refine ⟨_,.snoc path trivial rfl,congrArg (·++[true]) ticks,fixed'.trans fixed,frequency'.trans frequency,?_⟩
    have below : n%max 1 syncFreq < max 1 syncFreq := Nat.mod_lt _ (by omega)
    rw [counter',frequency,counter]
    split
    · have turned : n%max 1 syncFreq+1 = max 1 syncFreq := by omega
      rw [←Nat.mod_add_mod,turned,Nat.mod_self]
    · have short : n%max 1 syncFreq+1 < max 1 syncFreq := by omega
      rw [←Nat.mod_add_mod,Nat.mod_eq_of_lt short]

theorem certain_always_iff : (∀ actions s, Reaches step (new master drift uncertainty syncFreq now) actions s → Certain s) ↔
    drift = 0 := by
  constructor
  · intro always
    obtain ⟨s,path,ticks,fixed,_,counter⟩ := fast_ticks master drift uncertainty syncFreq now
      ((uncertainty+1)*max 1 syncFreq)
    obtain ⟨kept,same⟩ := runs_kept _ _ _ _ _ path
    have certain := (kept.certain_iff.mp (always _ s path)).1
    rw [Nat.mul_mod_left] at counter
    have none : ∀ n, (List.replicate n true).count false = 0 := by intro n; simp [List.count_replicate]
    simp only [ClockState.getUncertainty,counter,fixed,same,ticks,ahead,behind,none,List.count_replicate_self,
      Nat.zero_mul,Nat.zero_add,Nat.add_zero] at certain
    by_contra some
    have strayed : uncertainty+1 ≤ (uncertainty+1)*max 1 syncFreq*drift := by
      refine Nat.le_trans (Nat.le_mul_of_pos_right _ ?_) (Nat.le_mul_of_pos_right _ (Nat.pos_of_ne_zero some))
      exact Nat.lt_of_lt_of_le Nat.zero_lt_one (Nat.le_max_left ..)
    exact absurd certain (Nat.not_le.mpr strayed)
  · rintro rfl actions s path
    obtain ⟨kept,same⟩ := runs_kept _ _ _ _ _ path
    rw [kept.certain_iff,same]
    simp [Within,ahead,behind]

-- The uncertainty bounds the distance to real time in every state of a run exactly
-- when each tick that starts a sync finds the drift since the last resync within
-- the fixed uncertainty; it does so in all runs only if there is no drift.
theorem uncertainty_bounds_iff (path : Reaches step (new master drift uncertainty syncFreq now) actions s) :
    ((∀ state ∈ visited step (new master drift uncertainty syncFreq now) actions, Certain state) ↔
      Runs step Covered (new master drift uncertainty syncFreq now) actions s) ∧
    ((∀ actions s, Reaches step (new master drift uncertainty syncFreq now) actions s → Certain s) ↔ drift = 0) := by
  refine ⟨?_,certain_always_iff ..⟩
  refine visited_iff Certain Kept (fun _ _ _ kept _ ran => (step_kept kept ran).1)
    (fun _ _ _ kept certain _ ran => step_certain_iff kept certain ran) path (new_kept ..) ?_
  rw [(new_kept ..).certain_iff]
  simp [Within,ahead,behind,new]

end Runs

def sampleRun (syncFreq : Nat) : Timekeeping := new 2 (Duration.fromMicros 10) (Duration.fromMicros 10) syncFreq 0

-- The first sync is back before the next one is due.
def resyncedInTime : List Act :=
  [.tick true,.tick false,.tick true,.resync 3000000,.addDeadline 5500000,.tick true,.tick true,.resync 5000000,.tick false]

theorem uncertainty_bounds_resynced : ∃ s, Reaches step (sampleRun 3) resyncedInTime s ∧
    ∀ state ∈ visited step (sampleRun 3) resyncedInTime, Certain state := by
  obtain ⟨s,path,_⟩ := run_reaches step Covered (fun _ => True) (sampleRun 3) resyncedInTime (by decide +kernel)
  have reached := path.weaken fun _ _ _ => trivial
  exact ⟨s,reached,(uncertainty_bounds_iff 2 _ _ 3 0 reached).1.mpr path⟩

-- With the default of a sync at every tick, two ticks that drift the same way while
-- the first sync is still under way.
theorem uncertainty_exceeded : ¬ ∀ (master : NodeId) (drift uncertainty : Duration) (syncFreq : Nat) (now : SystemTime)
    (actions : List Act) (s : Timekeeping),
    Reaches step (new master drift uncertainty syncFreq now) actions s → Certain s := by
  intro bounded
  obtain ⟨s,path,strayed⟩ := run_reaches step (fun _ _ => True) (fun s => ¬ Certain s) (sampleRun 1)
    [.tick true,.tick true] (by decide +kernel)
  exact strayed (bounded 2 _ _ 1 0 _ s path)

end Uncertainty

end Timekeeping
end OmniPaxosKV

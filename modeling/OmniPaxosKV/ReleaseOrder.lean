import OmniPaxosKV.Buffers

-- The order in which one replica's waiter releases requests, and what becomes
-- of a deadline that arrives from the leader.
namespace OmniPaxosKV.ReleaseOrder
open Machine

section Heap
variable {R : Type} [Request R]

theorem le_total (a b : R) : storedRequestLe a b = true ∨ storedRequestLe b a = true := by
  simp only [storedRequestLe,decide_eq_true_eq]
  exact Nat.le_total _ _

theorem le_trans (a b c : R) (one : storedRequestLe a b = true) (two : storedRequestLe b c = true) :
    storedRequestLe a c = true := by
  simp only [storedRequestLe,decide_eq_true_eq] at *
  exact Nat.le_trans two one

theorem mem_push (b : Buffers R) (r x : R) : x ∈ (b.push r).early ↔ x = r ∨ x ∈ b.early := by
  rw [Buffers.push,(BinaryHeap.push_perm ..).mem_iff,List.mem_cons]

theorem push_ordered (b : Buffers R) (r : R) (ordered : BinaryHeap.Ordered storedRequestLe b.early) :
    BinaryHeap.Ordered storedRequestLe (b.push r).early :=
  BinaryHeap.push_ordered le_total le_trans _ _ ordered

-- Everything the waiter's locked section does.
theorem pop_parts {b rest : Buffers R} (popped : b.pop = some (req,sender,rest)) :
    BinaryHeap.pop storedRequestLe b.early = some (req,rest.early) ∧ sender = b.notifiers (Request.getId req) ∧
    rest = {b with early:=rest.early,notifiers:=b.notifiers.remove (Request.getId req),
                   lastReleasedDeadline:=some (Request.getDeadline req)} := by
  unfold Buffers.pop at popped
  split at popped
  · cases popped
  · rename_i item others taken
    simp only [Option.some.injEq,Prod.mk.injEq] at popped
    obtain ⟨rfl,rfl,rfl⟩ := popped
    exact ⟨taken,rfl,rfl⟩

-- The three things one step of the waiter can be.
inductive Waits : Queue R → Queue R → Prop where
  | pop (idle : q.waiter = .idle) (popped : q.buffers.pop = some (req,sender,buffers)) :
      Waits q {q with buffers:=buffers,waiter:=.popped sender req}
  | register (held : q.waiter = .popped sender req)
      (added : q.clock.addDeadline (Request.getDeadline req) q.nextChannel = (clock,overwritten)) :
      Waits q {q with clock:=clock,waiter:=.waiting sender req q.nextChannel,
                      nextChannel:=q.nextChannel+1,dropped:=q.dropped++overwritten.toList}
  | release (held : q.waiter = .waiting (some tx) req notifier) (notified : notifier ∈ q.fired) :
      Waits q {q with waiter:=.idle,released:=q.released++[(tx,req)]}
  | unsynchronized (held : q.waiter = .waiting none req notifier) (notified : notifier ∈ q.fired) :
      Waits q {q with waiter:=.idle}
  | lose (held : q.waiter = .waiting sender req notifier) (gone : notifier ∈ q.dropped) :
      Waits q {q with waiter:=.idle,dropped:=q.dropped++sender.toList}

theorem wait_sound {q next : Queue R} (ran : q.wait = some next) : Waits q next := by
  unfold Queue.wait at ran
  split at ran
  · rename_i idle
    split at ran
    · cases ran
    · cases Option.some.inj ran
      exact .pop idle ‹_›
  · rename_i sender req held
    cases added : q.clock.addDeadline (Request.getDeadline req) q.nextChannel with
    | mk clock overwritten =>
      rw [added] at ran
      cases Option.some.inj ran
      exact .register held added
  · rename_i sender req notifier held
    split at ran
    · rename_i notified
      cases sender with
      | some tx => cases Option.some.inj ran; exact .release held notified
      | none => cases Option.some.inj ran; exact .unsynchronized held notified
    · split at ran
      · rename_i gone
        cases Option.some.inj ran
        exact .lose held gone
      · cases ran

end Heap

-- The deadlines the waiter released do not decrease.
def ReleasedInOrder [Request R] (q : Queue R) : Prop :=
  (q.released.map fun pair => Request.getDeadline pair.2).Pairwise (· ≤ ·)

instance [Request R] (q : Queue R) : Decidable (ReleasedInOrder q) :=
  inferInstanceAs (Decidable (List.Pairwise _ _))

-- A deadline at least as late as the last one handed to the waiter.
def NotOvertaken (q : Queue R) (deadline : SystemTime) : Prop :=
  ∀ last ∈ q.buffers.lastReleasedDeadline, last ≤ deadline

instance (q : Queue R) (deadline : SystemTime) : Decidable (NotOvertaken q deadline) :=
  inferInstanceAs (Decidable (∀ last ∈ q.buffers.lastReleasedDeadline, last ≤ deadline))

-- A deadline assigned behind the waiter's back, by the leader's clock or by the
-- leader's message, has not been overtaken.
def OnTime [Request R] (q : Queue R) : Queue.Act R → Prop
  | .insert r imLeader => imLeader = true → q.buffers.eligible r = false → NotOvertaken q q.clock.newDeadline
  | .freeFromLate id newDeadline => (q.buffers.late id).isSome = true → NotOvertaken q newDeadline
  | _ => True

instance [Request R] (q : Queue R) (action : Queue.Act R) : Decidable (OnTime q action) := by
  cases action <;> unfold OnTime <;> infer_instance

structure InOrder [Request R] (q : Queue R) : Prop where
  heap : BinaryHeap.Ordered storedRequestLe q.buffers.early
  early : ∀ r ∈ q.buffers.early, NotOvertaken q (Request.getDeadline r)
  held : ∀ sender r, q.waiter = .popped sender r ∨ (∃ notifier, q.waiter = .waiting sender r notifier) →
    q.buffers.lastReleasedDeadline = some (Request.getDeadline r)
  released : ∀ pair ∈ q.released, ∃ last, q.buffers.lastReleasedDeadline = some last ∧
    Request.getDeadline pair.2 ≤ last
  sorted : ReleasedInOrder q

section Order
variable {R : Type} [Request R]

omit [Request R] in
theorem idle_holds_none {waiter : Waiter R} (idle : waiter = .idle) :
    ¬ (waiter = .popped sender r ∨ ∃ notifier, waiter = .waiting sender r notifier) := by
  subst idle
  rintro (held | ⟨notifier,held⟩) <;> cases held

theorem inOrder_new (clock : ClockState) : InOrder ({clock:=clock} : Queue R) := by
  refine ⟨BinaryHeap.ordered_nil,?_,?_,?_,List.Pairwise.nil⟩
  · intro r member; cases member
  · intro sender r held
    rcases held with held | ⟨notifier,held⟩ <;> cases held
  · intro pair member; cases member

-- Adding a request in time, whatever else the buffers record about it.
theorem InOrder.push {q : Queue R} (valid : InOrder q) (buffers : Buffers R) (r : R)
    (sameEarly : buffers.early = q.buffers.early)
    (sameLast : buffers.lastReleasedDeadline = q.buffers.lastReleasedDeadline)
    (inTime : NotOvertaken q (Request.getDeadline r)) : InOrder {q with buffers:=buffers.push r} := by
  have lastKept : (buffers.push r).lastReleasedDeadline = q.buffers.lastReleasedDeadline := sameLast
  refine ⟨push_ordered _ _ (sameEarly ▸ valid.heap),?_,?_,?_,valid.sorted⟩
  · intro x member last found
    rw [mem_push,sameEarly] at member
    rw [lastKept] at found
    rcases member with rfl | old
    · exact inTime last found
    · exact valid.early x old last found
  · intro sender x held
    exact lastKept.trans (valid.held sender x held)
  · intro pair member
    obtain ⟨last,found,bound⟩ := valid.released pair member
    exact ⟨last,lastKept.trans found,bound⟩

theorem InOrder.keep {q : Queue R} (valid : InOrder q) (next : Queue R) (early : next.buffers.early = q.buffers.early)
    (last : next.buffers.lastReleasedDeadline = q.buffers.lastReleasedDeadline)
    (waiter : next.waiter = q.waiter) (released : next.released = q.released) : InOrder next := by
  refine ⟨early ▸ valid.heap,?_,?_,?_,?_⟩
  · intro r member value found
    rw [early] at member
    rw [last] at found
    exact valid.early r member value found
  · intro sender r held
    rw [waiter] at held
    rw [last]
    exact valid.held sender r held
  · intro pair member
    rw [released] at member
    rw [last]
    exact valid.released pair member
  · simpa only [ReleasedInOrder,released] using valid.sorted

theorem inOrder_waits {q next : Queue R} (valid : InOrder q) (step : Waits q next) : InOrder next := by
  cases step with
  | pop idle popped =>
    rename_i req sender buffers
    obtain ⟨taken,rfl,same⟩ := pop_parts popped
    have sameLast : buffers.lastReleasedDeadline = some (Request.getDeadline req) := by rw [same]
    have mem := fun x => (BinaryHeap.pop_perm taken).mem_iff (a := x)
    refine ⟨BinaryHeap.pop_ordered le_total le_trans valid.heap taken,?_,?_,?_,valid.sorted⟩
    · intro r member last found
      change buffers.lastReleasedDeadline = some last at found
      rw [sameLast] at found
      cases found
      have below := BinaryHeap.pop_greatest le_total le_trans valid.heap taken
        ((mem r).mpr (List.mem_cons_of_mem _ member))
      simpa [storedRequestLe] using below
    · intro sender r held
      rcases held with held | ⟨notifier,held⟩
      · cases held; exact sameLast
      · cases held
    · intro pair member
      obtain ⟨last,found,bound⟩ := valid.released pair member
      exact ⟨_,sameLast,Nat.le_trans bound (valid.early req ((mem req).mpr List.mem_cons_self) last found)⟩
  | register held added =>
    refine ⟨valid.heap,valid.early,?_,valid.released,valid.sorted⟩
    intro sender r now
    rcases now with now | ⟨notifier,now⟩
    · cases now
    · cases now; exact valid.held _ _ (.inl held)
  | release held notified =>
    have newest := valid.held _ _ (.inr ⟨_,held⟩)
    refine ⟨valid.heap,valid.early,?_,?_,?_⟩
    · intro sender r now
      exact absurd now (idle_holds_none rfl)
    · intro pair member
      rcases List.mem_append.mp member with old | new
      · exact valid.released pair old
      · cases List.mem_singleton.mp new
        exact ⟨_,newest,Nat.le_refl _⟩
    · simp only [ReleasedInOrder,List.map_append,List.map_cons,List.map_nil]
      refine List.pairwise_append.mpr ⟨valid.sorted,List.pairwise_singleton _ _,?_⟩
      intro x member y last
      obtain ⟨pair,present,rfl⟩ := List.mem_map.mp member
      cases List.mem_singleton.mp last
      obtain ⟨bound,found,below⟩ := valid.released pair present
      rw [newest] at found
      cases found
      exact below
  | unsynchronized held notified =>
    refine ⟨valid.heap,valid.early,?_,valid.released,valid.sorted⟩
    intro sender r now
    exact absurd now (idle_holds_none rfl)
  | lose held gone =>
    refine ⟨valid.heap,valid.early,?_,valid.released,valid.sorted⟩
    intro sender r now
    exact absurd now (idle_holds_none rfl)

theorem eligible_notOvertaken {q : Queue R} (eligible : q.buffers.eligible r = true) :
    NotOvertaken q (Request.getDeadline r) := by
  intro last found
  simp only [Buffers.eligible,Option.mem_def.mp found,decide_eq_true_eq] at eligible
  exact Nat.le_of_lt eligible

theorem inOrder_step [LawfulRequest R] {q next : Queue R} (valid : InOrder q) (onTime : OnTime q action)
    (ran : q.step action = some next) : InOrder next := by
  cases action with
  | insert r imLeader =>
    cases Option.some.inj ran
    by_cases eligible : q.buffers.eligible r = true
    · have pushed := valid.push {q.buffers with notifiers:=q.buffers.notifiers.insert (Request.getId r) q.nextChannel}
        r rfl rfl (eligible_notOvertaken eligible)
      have stays : Buffers.eligible
          {q.buffers with notifiers:=q.buffers.notifiers.insert (Request.getId r) q.nextChannel} r = true := eligible
      refine pushed.keep _ ?_ ?_ rfl rfl <;> simp only [Queue.insert,Buffers.insert,stays,if_true]
    · have late : q.buffers.eligible r = false := by simpa using eligible
      have stays : Buffers.eligible
          {q.buffers with notifiers:=q.buffers.notifiers.insert (Request.getId r) q.nextChannel} r = false := late
      cases imLeader with
      | true =>
        have pushed := valid.push {q.buffers with notifiers:=q.buffers.notifiers.insert (Request.getId r) q.nextChannel}
          (Request.setDeadline r q.clock.newDeadline) rfl rfl
          (by rw [LawfulRequest.getDeadline_setDeadline]; exact onTime rfl late)
        refine pushed.keep _ ?_ ?_ rfl rfl <;>
          simp only [Queue.insert,Buffers.insert,stays,if_true,Bool.false_eq_true,if_false]
      | false =>
        refine valid.keep _ ?_ ?_ rfl rfl <;>
          simp only [Queue.insert,Buffers.insert,stays,Bool.false_eq_true,if_false]
  | freeFromLate id newDeadline =>
    cases Option.some.inj ran
    cases found : q.buffers.late id with
    | none =>
      rw [Queue.freeFromLate_none found]
      exact valid
    | some r =>
      have pushed := valid.push {q.buffers with late:=q.buffers.late.remove id} (Request.setDeadline r newDeadline)
        rfl rfl (by rw [LawfulRequest.getDeadline_setDeadline]; exact onTime (by simp [found]))
      rw [Queue.freeFromLate_some found]
      exact pushed
  | wait => exact inOrder_waits valid (wait_sound ran)
  | tick fast => cases Option.some.inj ran; exact valid.keep _ rfl rfl rfl rfl
  | resync realTime => cases Option.some.inj ran; exact valid.keep _ rfl rfl rfl rfl

end Order

-- The only two paths into the early heap that do not compare with the last
-- released deadline are the ones that can put releases out of order.
theorem releases_in_order (clock : ClockState) (actions : List (Queue.Act Command)) (q : Queue Command)
    (path : Runs Queue.step OnTime {clock:=clock} actions q) : ReleasedInOrder q :=
  (path.invariant InOrder (fun _ _ _ => inOrder_step) (inOrder_new clock)).sorted

-- A client's request as the second server numbers and dates it, in milliseconds.
def sample (privateId deadline : Nat) : Command :=
  ⟨1,2,7,privateId,Duration.fromMillis deadline,.put "x" "1"⟩

def sampleClock : ClockState :=
  {master:=2,drift:=10000,uncertainty:=10000,syncFreq:=100,logicalTime:=Duration.fromMillis 1000}

-- A follower releases a request, its clock is set back, the next request is
-- late by the follower's own clock, and the leader announces a deadline for it.
def announcedAfterRelease (newDeadline : Nat) : List (Queue.Act Command) :=
  [Queue.Act.insert (sample 0 1020) false,.wait,.wait]++List.replicate 20 (Queue.Act.tick true)++
  [Queue.Act.wait,.resync (Duration.fromMillis 990),.insert (sample 1 1010) false,
   .freeFromLate 1 (Duration.fromMillis newDeadline),.wait,.wait]++List.replicate 40 (Queue.Act.tick true)++[Queue.Act.wait]

theorem releases_in_order_announced : ∃ q : Queue Command,
    Runs Queue.step OnTime {clock:=sampleClock} (announcedAfterRelease 1025) q ∧
    ReleasedInOrder q ∧ q.released.length = 2 := by
  obtain ⟨q,path,count⟩ := run_reaches Queue.step OnTime (fun q => q.released.length = 2)
    ({clock:=sampleClock} : Queue Command) (announcedAfterRelease 1025) (by decide +kernel)
  exact ⟨q,path,releases_in_order _ _ _ path,count⟩

theorem releases_out_of_order : ¬ ∀ (clock : ClockState) (actions : List (Queue.Act Command)) (q : Queue Command),
    Reaches Queue.step {clock:=clock} actions q → ReleasedInOrder q := by
  intro claimed
  obtain ⟨q,path,disordered⟩ := run_reaches Queue.step (fun _ _ => True) (fun q => ¬ ReleasedInOrder q)
    ({clock:=sampleClock} : Queue Command) (announcedAfterRelease 1015) (by decide +kernel)
  exact disordered (claimed _ _ _ path)

-- Steps about other requests than the one numbered `key`: the waiter does not pop it either.
def Elsewhere [Request R] (key : Nat) (q : Queue R) : Queue.Act R → Prop
  | .insert r _ => Request.getId r ≠ key
  | .freeFromLate other _ => other ≠ key
  | .wait => q.waiter matches .idle → ∀ popped ∈ q.buffers.pop, Request.getId popped.1 ≠ key
  | _ => True

instance [Request R] (key : Nat) (q : Queue R) (action : Queue.Act R) : Decidable (Elsewhere key q action) := by
  cases action <;> unfold Elsewhere <;> infer_instance

-- Two queues hold the same under one number.
structure Holding [Request R] (key : Nat) (q q' : Queue R) : Prop where
  late : q'.buffers.late key = q.buffers.late key
  early : ∀ x, Request.getId x = key → (x ∈ q'.buffers.early ↔ x ∈ q.buffers.early)

section Elsewhere
variable {R : Type} [Request R] {key : Nat}

theorem holding_refl (q : Queue R) : Holding key q q := ⟨rfl,fun _ _ => Iff.rfl⟩

theorem Holding.trans {q q' q'' : Queue R} (one : Holding key q q') (two : Holding key q' q'') : Holding key q q'' :=
  ⟨two.late.trans one.late,fun x same => (two.early x same).trans (one.early x same)⟩

-- Where an insert puts its request.
theorem insert_buffers (q : Queue R) (r : R) (imLeader : Bool) :
    let stored : Buffers R := {q.buffers with notifiers:=q.buffers.notifiers.insert (Request.getId r) q.nextChannel}
    (q.insert r imLeader).1.buffers =
      if q.buffers.eligible r then stored.push r
      else if imLeader then stored.push (Request.setDeadline r q.clock.newDeadline)
      else {stored with late:=q.buffers.late.insert (Request.getId r) r} := by
  have same : Buffers.eligible
    {q.buffers with notifiers:=q.buffers.notifiers.insert (Request.getId r) q.nextChannel} r = q.buffers.eligible r := rfl
  simp only [Queue.insert,Buffers.insert,same]
  split
  · rfl
  · split <;> rfl

theorem insert_notifiers (q : Queue R) (r : R) (imLeader : Bool) :
    (q.insert r imLeader).1.buffers.notifiers = q.buffers.notifiers.insert (Request.getId r) q.nextChannel := by
  rw [insert_buffers]
  split
  · rfl
  · split <;> rfl

theorem insert_late {q : Queue R} (found : (q.insert r imLeader).1.buffers.late key = some x) :
    x = r ∧ Request.getId r = key ∨ q.buffers.late key = some x := by
  rw [insert_buffers] at found
  split at found
  · exact .inr found
  · split at found
    · exact .inr found
    · change q.buffers.late.insert (Request.getId r) r key = some x at found
      rw [KeyMap.insert_apply] at found
      split at found
      · cases found
        exact .inl ⟨rfl,Eq.symm ‹_›⟩
      · exact .inr found

theorem insert_early {q : Queue R} (member : x ∈ (q.insert r imLeader).1.buffers.early) :
    x = r ∨ (∃ deadline, x = Request.setDeadline r deadline) ∨ x ∈ q.buffers.early := by
  rw [insert_buffers] at member
  split at member
  · rcases (mem_push ..).mp member with own | old
    · exact .inl own
    · exact .inr (.inr old)
  · split at member
    · rcases (mem_push ..).mp member with own | old
      · exact .inr (.inl ⟨_,own⟩)
      · exact .inr (.inr old)
    · exact .inr (.inr member)

theorem free_late {q : Queue R} (found : (q.freeFromLate other newDeadline).buffers.late key = some x) :
    q.buffers.late key = some x := by
  cases parked : q.buffers.late other with
  | none => rwa [Queue.freeFromLate_none parked] at found
  | some r =>
    rw [Queue.freeFromLate_some parked] at found
    change q.buffers.late.remove other key = some x at found
    rw [KeyMap.remove_apply] at found
    split at found
    · cases found
    · exact found

theorem free_early {q : Queue R} (member : x ∈ (q.freeFromLate other newDeadline).buffers.early) :
    (∃ r, q.buffers.late other = some r ∧ x = Request.setDeadline r newDeadline) ∨ x ∈ q.buffers.early := by
  cases parked : q.buffers.late other with
  | none =>
    rw [Queue.freeFromLate_none parked] at member
    exact .inr member
  | some r =>
    rw [Queue.freeFromLate_some parked] at member
    rcases (mem_push ..).mp member with own | old
    · exact .inl ⟨r,rfl,own⟩
    · exact .inr old

theorem mem_push_other (b : Buffers R) (other : Request.getId r ≠ key) (same : Request.getId x = key) :
    x ∈ (b.push r).early ↔ x ∈ b.early := by
  rw [mem_push]
  refine ⟨?_,Or.inr⟩
  intro member
  rcases member with rfl | old
  · exact absurd same other
  · exact old

theorem holding_insert [LawfulRequest R] (q : Queue R) (r : R) (imLeader : Bool) (other : Request.getId r ≠ key) :
    Holding key q (q.insert r imLeader).1 := by
  have parts := insert_buffers q r imLeader
  dsimp only at parts
  refine ⟨?_,?_⟩
  · rw [parts]
    split
    · rfl
    · split
      · rfl
      · exact KeyMap.insert_of_ne _ other.symm
  · intro x same
    rw [parts]
    split
    · exact mem_push_other _ other same
    · split
      · exact mem_push_other _ (by rwa [LawfulRequest.getId_setDeadline]) same
      · rfl

-- The late buffer keeps a request under its own number.
def Filed (q : Queue R) : Prop := ∀ number r, q.buffers.late number = some r → Request.getId r = number

theorem filed_step [LawfulRequest R] {q next : Queue R} (filed : Filed q) (ran : q.step action = some next) :
    Filed next := by
  cases action with
  | insert r imLeader =>
    cases Option.some.inj ran
    intro number x found
    rcases insert_late found with ⟨rfl,same⟩ | old
    · exact same
    · exact filed number x old
  | freeFromLate other newDeadline =>
    cases Option.some.inj ran
    intro number x found
    exact filed number x (free_late found)
  | wait =>
    cases wait_sound ran with
    | pop idle popped =>
      obtain ⟨_,_,same⟩ := pop_parts popped
      intro number x found
      rw [same] at found
      exact filed number x found
    | _ => exact filed
  | tick fast => cases Option.some.inj ran; exact filed
  | resync realTime => cases Option.some.inj ran; exact filed

theorem holding_free [LawfulRequest R] (q : Queue R) (filed : Filed q) (distinct : other ≠ key) :
    Holding key q (q.freeFromLate other newDeadline) := by
  cases found : q.buffers.late other with
  | none =>
    rw [Queue.freeFromLate_none found]
    exact holding_refl q
  | some r =>
    have number : Request.getId (Request.setDeadline r newDeadline) ≠ key := by
      rw [LawfulRequest.getId_setDeadline,filed other r found]
      exact distinct
    rw [Queue.freeFromLate_some found]
    exact ⟨KeyMap.remove_of_ne _ distinct.symm,fun x same => mem_push_other _ number same⟩

theorem holding_step [LawfulRequest R] {q next : Queue R} (filed : Filed q) (elsewhere : Elsewhere key q action)
    (ran : q.step action = some next) : Holding key q next := by
  cases action with
  | insert r imLeader => cases Option.some.inj ran; exact holding_insert q r imLeader elsewhere
  | freeFromLate other newDeadline => cases Option.some.inj ran; exact holding_free q filed elsewhere
  | wait =>
    cases wait_sound ran with
    | pop idle popped =>
      rename_i req sender buffers
      obtain ⟨taken,_,same⟩ := pop_parts popped
      have other : Request.getId req ≠ key := elsewhere (by rw [idle]) _ popped
      refine ⟨by rw [same],?_⟩
      intro x number
      rw [(BinaryHeap.pop_perm taken).mem_iff,List.mem_cons]
      refine ⟨Or.inr,?_⟩
      intro member
      rcases member with rfl | rest
      · exact absurd number other
      · exact rest
    | _ => exact ⟨rfl,fun _ _ => Iff.rfl⟩
  | tick fast => cases Option.some.inj ran; exact ⟨rfl,fun _ _ => Iff.rfl⟩
  | resync realTime => cases Option.some.inj ran; exact ⟨rfl,fun _ _ => Iff.rfl⟩

theorem filed_runs [LawfulRequest R] {q next : Queue R} (filed : Filed q)
    (path : Runs Queue.step allowed q actions next) : Filed next :=
  path.invariant Filed (fun _ _ _ filed _ ran => filed_step filed ran) filed

theorem holding_runs [LawfulRequest R] {q next : Queue R} (filed : Filed q)
    (path : Runs Queue.step (Elsewhere key) q actions next) : Holding key q next := by
  induction path with
  | nil => exact holding_refl q
  | snoc earlier elsewhere ran ih => exact ih.trans (holding_step (filed_runs filed earlier) elsewhere ran)

-- What the two buffers hold under one number, at most one request each.
structure Contents (key : Nat) (q : Queue R) (parked waiting : Option R) : Prop where
  filed : Filed q
  late : q.buffers.late key = parked
  early : ∀ x, Request.getId x = key → (x ∈ q.buffers.early ↔ waiting = some x)

theorem contents_new (clock : ClockState) : Contents key ({clock:=clock} : Queue R) none none := by
  refine ⟨?_,rfl,?_⟩
  · intro number r found; cases found
  · intro x _
    exact ⟨fun member => (List.not_mem_nil member).elim,fun absent => nomatch absent⟩

theorem Contents.runs [LawfulRequest R] {q next : Queue R} (holds : Contents key q parked waiting)
    (path : Runs Queue.step (Elsewhere key) q actions next) : Contents key next parked waiting := by
  have kept := holding_runs holds.filed path
  exact ⟨filed_runs holds.filed path,kept.late.trans holds.late,
    fun x same => (kept.early x same).trans (holds.early x same)⟩

-- Adding the one request of a number that was not there.
theorem mem_push_fresh (b : Buffers R) (r x : R) (fresh : x ∉ b.early) :
    x ∈ (b.push r).early ↔ some r = some x := by
  rw [mem_push,Option.some.injEq]
  constructor
  · intro member
    rcases member with rfl | old
    · rfl
    · exact absurd old fresh
  · intro equal
    subst equal
    exact .inl rfl

theorem Contents.insert [LawfulRequest R] {q : Queue R} (holds : Contents (Request.getId r) q none none) :
    Contents (Request.getId r) (q.insert r false).1
      (if q.buffers.eligible r then none else some r) (if q.buffers.eligible r then some r else none) := by
  have parts := insert_buffers q r false
  dsimp only at parts
  have ran : q.step (.insert r false) = some (q.insert r false).1 := rfl
  refine ⟨filed_step holds.filed ran,?_,?_⟩
  · rw [parts]
    split
    · exact holds.late
    · exact KeyMap.insert_self _
  · intro x same
    rw [parts]
    split
    · refine mem_push_fresh _ r x ?_
      intro old
      cases (holds.early x same).mp old
    · exact holds.early x same

theorem Contents.free [LawfulRequest R] {q : Queue R} (holds : Contents key q parked waiting)
    (single : parked = none ∨ waiting = none) : Contents key (q.freeFromLate key newDeadline) none
      (match parked with | none => waiting | some r => some (Request.setDeadline r newDeadline)) := by
  have ran : q.step (.freeFromLate key newDeadline) = some (q.freeFromLate key newDeadline) := rfl
  have filed := filed_step holds.filed ran
  cases parked with
  | none =>
    rw [Queue.freeFromLate_none holds.late]
    exact holds
  | some r =>
    rcases single with parked | absent
    · cases parked
    subst absent
    rw [Queue.freeFromLate_some holds.late] at filed ⊢
    refine ⟨filed,KeyMap.remove_self _,?_⟩
    · intro x same
      refine mem_push_fresh _ _ x ?_
      intro old
      cases (holds.early x same).mp old

-- The announced deadline has reached the request: it waits under that deadline,
-- and nowhere under another one.
def TakesEffect (q : Queue R) (r : R) (d : SystemTime) : Prop :=
  Request.setDeadline r d ∈ q.buffers.early ∧ q.buffers.late (Request.getId r) = none ∧
  ∀ x ∈ q.buffers.early, Request.getId x = Request.getId r → Request.getDeadline x = d

theorem Contents.takesEffect [LawfulRequest R] {q : Queue R} (holds : Contents (Request.getId r) q parked waiting) :
    TakesEffect q r d ↔ parked = none ∧ waiting = some (Request.setDeadline r d) := by
  have dated := holds.early (Request.setDeadline r d) (LawfulRequest.getId_setDeadline r d)
  constructor
  · intro held
    obtain ⟨member,empty,_⟩ := held
    exact ⟨holds.late.symm.trans empty,dated.mp member⟩
  · intro held
    obtain ⟨rfl,rfl⟩ := held
    refine ⟨dated.mpr rfl,holds.late,?_⟩
    intro x member same
    cases (holds.early x same).mp member
    exact LawfulRequest.getDeadline_setDeadline r d

end Elsewhere

instance (q : Queue Command) (r : Command) (d : SystemTime) : Decidable (TakesEffect q r d) := by
  unfold TakesEffect
  infer_instance

theorem eq_setDeadline_iff (r : Command) : r = Request.setDeadline r d ↔ r.deadline = d := by
  constructor
  · intro same
    exact congrArg Command.deadline same
  · intro equal
    subst equal
    rfl

-- The two calls about one request, in the order in which their tasks run.
def announcement (r : Command) (d : SystemTime) (insertFirst : Bool) : Queue.Act Command × Queue.Act Command :=
  if insertFirst then (.insert r false,.freeFromLate r.privateId d) else (.freeFromLate r.privateId d,.insert r false)

-- A deadline that arrives before its request is lost, and one for a request that
-- is still eligible is ignored.
theorem announcement_takes_effect_iff (clock : ClockState) (r : Command) (d : SystemTime) (insertFirst : Bool)
    (earlier between later : List (Queue.Act Command)) (initial one two both final : Queue Command)
    (before : Runs Queue.step (Elsewhere r.privateId) {clock:=clock} earlier initial)
    (first : initial.step (announcement r d insertFirst).1 = some one)
    (middle : Runs Queue.step (Elsewhere r.privateId) one between two)
    (second : two.step (announcement r d insertFirst).2 = some both)
    (after : Runs Queue.step (Elsewhere r.privateId) both later final) :
    TakesEffect final r d ↔
      (insertFirst = true ∧ initial.buffers.eligible r = false) ∨
      ((if insertFirst then initial else two).buffers.eligible r = true ∧ r.deadline = d) := by
  have fresh : Contents (Request.getId r) initial none none := (contents_new clock).runs before
  cases insertFirst with
  | true =>
    cases Option.some.inj first
    cases Option.some.inj second
    have stored := fresh.insert.runs middle
    cases eligible : initial.buffers.eligible r with
    | true =>
      simp only [eligible,if_true] at stored
      rw [((stored.free (.inl rfl)).runs after).takesEffect]
      simp [eligible,eq_setDeadline_iff]
    | false =>
      simp only [eligible,Bool.false_eq_true,if_false] at stored
      rw [((stored.free (.inr rfl)).runs after).takesEffect]
      simp [eligible]
  | false =>
    cases Option.some.inj first
    cases Option.some.inj second
    have untouched := (fresh.free (.inl rfl)).runs middle
    rw [(untouched.insert.runs after).takesEffect]
    cases eligible : two.buffers.eligible r with
    | true => simp [eligible,eq_setDeadline_iff]
    | false => simp [eligible]

-- A first request is popped, so the second one, dated before it, is late.
def poppedFirst : List (Queue.Act Command) := [.insert (sample 0 1020) false,.wait]

theorem announcement_takes_effect_parked : ∃ q : Queue Command,
    Runs Queue.step (Elsewhere 1) {clock:=sampleClock} poppedFirst q ∧
    TakesEffect ((q.insert (sample 1 1010) false).1.freeFromLate 1 (Duration.fromMillis 1030)) (sample 1 1010)
      (Duration.fromMillis 1030) := by
  obtain ⟨q,path,late⟩ := run_reaches Queue.step (Elsewhere 1)
    (fun q => q.buffers.eligible (sample 1 1010) = false) ({clock:=sampleClock} : Queue Command) poppedFirst
    (by decide +kernel)
  exact ⟨q,path,(announcement_takes_effect_iff sampleClock (sample 1 1010) (Duration.fromMillis 1030) true
    poppedFirst [] [] q _ _ _ _ path rfl .nil rfl .nil).mpr (.inl ⟨rfl,late⟩)⟩

theorem announcement_lost : ¬ ∀ (clock : ClockState) (r : Command) (d : SystemTime) (insertFirst : Bool)
    (earlier between later : List (Queue.Act Command)) (initial one two both final : Queue Command),
    Runs Queue.step (Elsewhere r.privateId) {clock:=clock} earlier initial →
    initial.step (announcement r d insertFirst).1 = some one →
    Runs Queue.step (Elsewhere r.privateId) one between two →
    two.step (announcement r d insertFirst).2 = some both →
    Runs Queue.step (Elsewhere r.privateId) both later final → TakesEffect final r d := by
  intro claimed
  obtain ⟨q,path,lost⟩ := run_reaches Queue.step (Elsewhere 1)
    (fun q => ¬ TakesEffect ((q.freeFromLate 1 (Duration.fromMillis 1030)).insert (sample 1 1010) false).1
      (sample 1 1010) (Duration.fromMillis 1030)) ({clock:=sampleClock} : Queue Command) poppedFirst (by decide +kernel)
  exact lost (claimed sampleClock (sample 1 1010) (Duration.fromMillis 1030) false poppedFirst [] [] q _ _ _ _
    path rfl .nil rfl .nil)

end OmniPaxosKV.ReleaseOrder

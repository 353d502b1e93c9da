import OmniPaxosKV.Custody

-- What the moment and the order of their arrival do to requests: which of them a
-- replica treats as late, and in which order its waiter releases them.
namespace OmniPaxosKV.Arrival
open Machine ReleaseOrder Custody

section Lateness
variable {R : Type} [Request R]

-- A follower parks the request; a leader gives it another deadline.
def TreatedLate (q : Queue R) (r : R) (imLeader : Bool) : Prop :=
  (q.insert r imLeader).1.buffers.late (Request.getId r) = some r ∨ (q.insert r imLeader).2.2.isSome = true

instance [DecidableEq R] (q : Queue R) (r : R) (imLeader : Bool) : Decidable (TreatedLate q r imLeader) :=
  inferInstanceAs (Decidable (_ ∨ _))

def Overtaken (q : Queue R) (r : R) : Prop := ∃ pair ∈ q.released, Request.getDeadline r ≤ Request.getDeadline pair.2

instance (q : Queue R) (r : R) : Decidable (Overtaken q r) := inferInstanceAs (Decidable (∃ pair ∈ q.released, _))

def LateIfOvertaken (q : Queue R) : Queue.Act R → Prop
  | .insert r imLeader => TreatedLate q r imLeader → Overtaken q r
  | _ => True

instance [DecidableEq R] (q : Queue R) : (action : Queue.Act R) → Decidable (LateIfOvertaken q action)
  | .insert _ _ => instDecidableForall
  | .freeFromLate _ _ | .wait | .tick _ | .resync _ => .isTrue trivial

-- The waiter is not between the pop and the release of the first request that
-- overtakes the inserted one.
def NotAhead (q : Queue R) : Queue.Act R → Prop
  | .insert r _ => ∀ pair ∈ held q.waiter, Request.getDeadline r ≤ Request.getDeadline pair.2 → Overtaken q r
  | _ => True

instance (q : Queue R) : (action : Queue.Act R) → Decidable (NotAhead q action)
  | .insert _ _ => Option.decidableForallMem (held q.waiter)
  | .freeFromLate _ _ | .wait | .tick _ | .resync _ => .isTrue trivial

-- The deadline that the buffers call released is the held request's; only without
-- one it is that of a released request.
structure Handed (q : Queue R) : Prop where
  holds : ∀ sender req, held q.waiter = some (sender,req) →
    q.buffers.lastReleasedDeadline = some (Request.getDeadline req)
  idle : held q.waiter = none → ∀ last, q.buffers.lastReleasedDeadline = some last →
    ∃ pair ∈ q.released, Request.getDeadline pair.2 = last

theorem handed_new (clock : ClockState) : Handed ({clock:=clock} : Queue R) := by
  refine ⟨?_,?_⟩
  · intro sender req taken; cases taken
  · intro _ last found; cases found

theorem Handed.keep {q next : Queue R} (handed : Handed q) (waiter : next.waiter = q.waiter)
    (last : next.buffers.lastReleasedDeadline = q.buffers.lastReleasedDeadline) (released : next.released = q.released) :
    Handed next := by
  refine ⟨?_,?_⟩
  · rw [waiter,last]
    exact handed.holds
  · rw [waiter,last,released]
    exact handed.idle

theorem insert_last (q : Queue R) (r : R) (imLeader : Bool) :
    (q.insert r imLeader).1.buffers.lastReleasedDeadline = q.buffers.lastReleasedDeadline := by
  rw [insert_buffers]
  split
  · rfl
  · split <;> rfl

theorem free_last (q : Queue R) (id : Nat) (newDeadline : SystemTime) :
    (q.freeFromLate id newDeadline).buffers.lastReleasedDeadline = q.buffers.lastReleasedDeadline := by
  cases parked : q.buffers.late id with
  | none => rw [Queue.freeFromLate_none parked]
  | some r => rw [Queue.freeFromLate_some parked]; rfl

-- A popped request has its sender and its notification, so it is released.
theorem handed_waits {q next : Queue R} (handed : Handed q) (stocked : Stocked requests q) (waits : Waits q next) :
    Handed next := by
  cases waits with
  | pop idle popped =>
    obtain ⟨_,_,same⟩ := pop_parts popped
    refine ⟨?_,?_⟩
    · intro sender req taken
      cases taken
      rw [same]
    · intro free; cases free
  | register taken added =>
    refine ⟨?_,?_⟩
    · intro sender req now
      cases now
      exact handed.holds _ _ (by rw [taken]; rfl)
    · intro free; cases free
  | release taken notified =>
    refine ⟨?_,?_⟩
    · intro sender req now; cases now
    · intro _ last found
      have newest := handed.holds _ _ (by rw [taken]; rfl)
      cases newest.symm.trans found
      exact ⟨_,List.mem_append_right _ (List.mem_singleton.mpr rfl),rfl⟩
  | unsynchronized taken notified =>
    have present := stocked.sender none _ (by rw [taken]; rfl)
    cases present
  | lose taken gone => simp [stocked.lossless] at gone

theorem handed_step {q next : Queue R} (handed : Handed q) (stocked : Stocked requests q)
    (ran : q.step action = some next) : Handed next := by
  cases action with
  | insert r imLeader =>
    cases Option.some.inj ran
    exact handed.keep rfl (insert_last q r imLeader) rfl
  | freeFromLate id newDeadline =>
    cases Option.some.inj ran
    exact handed.keep rfl (free_last q id newDeadline) rfl
  | wait => exact handed_waits handed stocked (wait_sound ran)
  | tick fast => cases Option.some.inj ran; exact handed.keep rfl rfl rfl
  | resync realTime => cases Option.some.inj ran; exact handed.keep rfl rfl rfl

theorem handed_runs [LawfulRequest R] {initial q : Queue R} (stocked : Stocked [] initial) (registered : Registered initial)
    (handed : Handed initial) (path : Reaches Queue.step initial actions q)
    (distinct : ((inserted actions).map Request.getId).Nodup) : Handed q := by
  induction path with
  | nil => exact handed
  | snoc earlier _ ran ih =>
    rw [inserted_append] at distinct
    have before := distinct.sublist ((List.sublist_append_left ..).map _)
    exact handed_step (ih before) (stocked_runs stocked registered earlier before).1 ran

-- A request of a new number is treated as late exactly when it is not eligible.
theorem treatedLate_iff {q : Queue R} (r : R) (imLeader : Bool) (absent : q.buffers.late (Request.getId r) = none) :
    TreatedLate q r imLeader ↔ ∃ last, q.buffers.lastReleasedDeadline = some last ∧ Request.getDeadline r ≤ last := by
  have late : q.buffers.eligible r = false ↔
      ∃ last, q.buffers.lastReleasedDeadline = some last ∧ Request.getDeadline r ≤ last := by
    unfold Buffers.eligible
    cases q.buffers.lastReleasedDeadline <;> simp
  rw [←late]
  unfold TreatedLate
  rw [insert_buffers]
  have same : Buffers.eligible
    {q.buffers with notifiers:=q.buffers.notifiers.insert (Request.getId r) q.nextChannel} r = q.buffers.eligible r := rfl
  simp only [Queue.insert,Buffers.insert,same]
  cases q.buffers.eligible r with
  | true => simp [Buffers.push,absent]
  | false => cases imLeader <;> simp [Buffers.push,absent]

theorem lateIfOvertaken_iff {q : Queue R} (handed : Handed q) (r : R) (imLeader : Bool)
    (absent : q.buffers.late (Request.getId r) = none) :
    LateIfOvertaken q (.insert r imLeader) ↔ NotAhead q (.insert r imLeader) := by
  simp only [LateIfOvertaken,NotAhead,treatedLate_iff r imLeader absent]
  constructor
  · rintro justified ⟨sender,req⟩ taken ahead
    exact justified ⟨_,handed.holds sender req taken,ahead⟩
  · rintro notAhead ⟨last,found,late⟩
    cases taken : held q.waiter with
    | none =>
      obtain ⟨pair,member,rfl⟩ := handed.idle taken last found
      exact ⟨pair,member,late⟩
    | some pair =>
      cases (handed.holds pair.1 pair.2 taken).symm.trans found
      exact notAhead pair taken late

end Lateness

-- In every run with new numbers, a request is treated as late only after a release
-- that overtakes it, exactly if none arrives while the waiter keeps the first such
-- request for its deadline.
theorem late_if_overtaken_iff [Request R] [LawfulRequest R] (master : NodeId) (drift uncertainty : Duration) (syncFreq : Nat)
    (now : SystemTime) (actions : List (Queue.Act R)) (q : Queue R)
    (distinct : ((inserted actions).map Request.getId).Nodup) :
    Runs Queue.step LateIfOvertaken {clock:=.new master drift uncertainty syncFreq now} actions q ↔
    Runs Queue.step NotAhead {clock:=.new master drift uncertainty syncFreq now} actions q := by
  have exact : ∀ earlier q action later, actions = earlier++action::later →
      Reaches Queue.step {clock:=.new master drift uncertainty syncFreq now} earlier q →
      (LateIfOvertaken q action ↔ NotAhead q action) := by
    rintro earlier q action later rfl path
    cases action with
    | insert r imLeader =>
      rw [inserted_append,List.map_append] at distinct
      have before := distinct.sublist (List.sublist_append_left ..)
      have stocked := (stocked_runs (stocked_new _) (registered_new _ ⟨rfl,rfl⟩) path before).1
      have fresh : Request.getId r ∉ (inserted earlier).map Request.getId := fun member =>
        List.disjoint_of_nodup_append distinct member List.mem_cons_self
      refine lateIfOvertaken_iff ?_ r imLeader (stocked.absent fresh).1
      exact handed_runs (stocked_new _) (registered_new _ ⟨rfl,rfl⟩) (handed_new _) path before
    | freeFromLate | wait | tick | resync => exact Iff.rfl
  constructor
  · exact fun runs => runs.exchange fun earlier s action later _ same path _ => (exact earlier s action later same path).mp
  · exact fun runs => runs.exchange fun earlier s action later _ same path _ => (exact earlier s action later same path).mpr

def arrivalClock : ClockState := .new 2 10000 10000 100 (Duration.fromMillis 1000)

-- The second request comes when the first has been released.
def arrivesBehind : List (Queue.Act Command) :=
  [Queue.Act.insert (sample 0 1005) false,.wait,.wait]++List.replicate 10 (Queue.Act.tick true)++
  [Queue.Act.wait,.insert (sample 1 1004) false]

theorem late_if_overtaken_behind : ∃ q : Queue Command, Runs Queue.step NotAhead {clock:=arrivalClock} arrivesBehind q ∧
    Runs Queue.step LateIfOvertaken {clock:=arrivalClock} arrivesBehind q ∧ (q.buffers.late 1).isSome = true := by
  obtain ⟨q,path,parked⟩ := run_reaches Queue.step NotAhead (fun q => (q.buffers.late 1).isSome = true)
    ({clock:=arrivalClock} : Queue Command) arrivesBehind (by decide +kernel)
  exact ⟨q,path,(late_if_overtaken_iff _ _ _ _ _ _ _ (by decide)).mpr path,parked⟩

-- The waiter has taken the first request and waits for its deadline; the second is
-- due before it, and nothing has been released.
def arrivesAhead : List (Queue.Act Command) :=
  [.insert (sample 0 1005) false,.wait,.insert (sample 1 1004) false]

theorem late_unovertaken : ¬ ∀ (master : NodeId) (drift uncertainty : Duration) (syncFreq : Nat) (now : SystemTime)
    (actions : List (Queue.Act Command)) (q : Queue Command), ((inserted actions).map Request.getId).Nodup →
    Reaches Queue.step {clock:=.new master drift uncertainty syncFreq now} actions q →
    Runs Queue.step LateIfOvertaken {clock:=.new master drift uncertainty syncFreq now} actions q := by
  intro justified
  obtain ⟨q,path,_⟩ := run_reaches Queue.step (fun _ _ => True) (fun q => q.released = [])
    ({clock:=arrivalClock} : Queue Command) arrivesAhead (by decide +kernel)
  have claimed := run_complete (justified _ _ _ _ _ _ q (by decide) path)
  have stuck : (run Queue.step LateIfOvertaken ({clock:=arrivalClock} : Queue Command) arrivesAhead).isSome = false := by
    decide +kernel
  rw [arrivalClock,claimed] at stuck
  cases stuck

section Releases
variable {R : Type} [Request R]

-- The early heap once requests have arrived in this order.
def heapOf (order : List R) : List R := order.foldl (BinaryHeap.push storedRequestLe) []

theorem heapOf_concat (order : List R) (r : R) :
    heapOf (order++[r]) = BinaryHeap.push storedRequestLe (heapOf order) r := by
  simp [heapOf]

theorem heapOf_perm (order : List R) : (heapOf order).Perm order := by
  induction order using List.reverseRecOn with
  | nil => exact .refl _
  | append_singleton order r ih =>
    rw [heapOf_concat]
    exact (BinaryHeap.push_perm ..).trans ((ih.cons r).trans (List.perm_append_singleton r order).symm)

theorem heapOf_ordered (order : List R) : BinaryHeap.Ordered storedRequestLe (heapOf order) := by
  induction order using List.reverseRecOn with
  | nil => exact BinaryHeap.ordered_nil
  | append_singleton order r ih =>
    rw [heapOf_concat]
    exact BinaryHeap.push_ordered le_total le_trans _ _ ih

theorem heapOf_map {f : R → R} (same : ∀ r, Request.getDeadline (f r) = Request.getDeadline r) (order : List R) :
    heapOf (order.map f) = (heapOf order).map f := by
  have level : ∀ x y, storedRequestLe (f x) (f y) = storedRequestLe x y := by
    intro x y
    simp only [storedRequestLe,same]
  induction order using List.reverseRecOn with
  | nil => rfl
  | append_singleton order r ih =>
    rw [List.map_append,List.map_singleton,heapOf_concat,heapOf_concat,ih,BinaryHeap.push_map level]

-- What the waiter will have released of these, once it has been through the heap.
def releaseOrder (order : List R) : List R := BinaryHeap.drain storedRequestLe (heapOf order)

theorem releaseOrder_perm (order : List R) : (releaseOrder order).Perm order :=
  (BinaryHeap.drain_perm ..).trans (heapOf_perm order)

-- With distinct deadlines there is only one way to sort them.
theorem releaseOrder_unique {order order' : List R} (perm : order.Perm order')
    (distinct : (order.map Request.getDeadline).Nodup) : releaseOrder order = releaseOrder order' := by
  have perms := (releaseOrder_perm order).trans (perm.trans (releaseOrder_perm order').symm)
  have sorted := fun order : List R => BinaryHeap.drain_sorted le_total le_trans _ (heapOf_ordered order)
  refine perms.eq_of_pairwise ?_ (sorted order) (sorted order')
  intro a b first second below above
  simp only [storedRequestLe,decide_eq_true_eq] at below above
  have inFirst := (releaseOrder_perm order).mem_iff.mp first
  have inSecond := perm.mem_iff.mpr ((releaseOrder_perm order').mem_iff.mp second)
  exact List.inj_on_of_nodup_map distinct inFirst inSecond (Nat.le_antisymm below above)

-- The waiter has not begun.
structure Gathered (order : List R) (q : Queue R) : Prop where
  early : q.buffers.early = heapOf order
  late : q.buffers.late = .empty
  last : q.buffers.lastReleasedDeadline = none
  waiter : q.waiter = .idle
  released : q.released = []

theorem gathered_insert {q : Queue R} (gathered : Gathered order q) (r : R) (imLeader : Bool) :
    Gathered (order++[r]) (q.insert r imLeader).1 := by
  have eligible : q.buffers.eligible r = true := by rw [Buffers.eligible,gathered.last]
  have stored := insert_buffers q r imLeader
  dsimp only at stored
  rw [if_pos eligible] at stored
  refine ⟨?_,?_,?_,gathered.waiter,gathered.released⟩
  · rw [stored,heapOf_concat,←gathered.early]
    rfl
  · rw [stored]
    exact gathered.late
  · rw [stored]
    exact gathered.last

theorem gathered_runs {clock : ClockState} {q : Queue R} (path : Reaches Queue.step {clock:=clock} actions q)
    (patient : Queue.Act.wait ∉ actions) : Gathered (inserted actions) q := by
  induction path with
  | nil => exact ⟨rfl,rfl,rfl,rfl,rfl⟩
  | snoc earlier meets ran ih =>
    rename_i before middle action after
    have gathered := ih fun member => patient (List.mem_append_left _ member)
    rw [inserted_append]
    cases action with
    | insert r imLeader =>
      cases Option.some.inj ran
      exact gathered_insert gathered r imLeader
    | freeFromLate id newDeadline =>
      cases Option.some.inj ran
      have absent : middle.buffers.late id = none := by rw [gathered.late]; rfl
      rw [Queue.freeFromLate_none absent]
      exact (List.append_nil (inserted before)).symm ▸ gathered
    | wait => exact absurd (List.mem_append_right _ (List.mem_singleton.mpr rfl)) patient
    | tick | resync =>
      cases Option.some.inj ran
      refine (List.append_nil (inserted before)).symm ▸ ?_
      exact ⟨gathered.early,gathered.late,gathered.last,gathered.waiter,gathered.released⟩

-- What is released, what the waiter holds and what the heap would still give.
structure Draining (order : List R) (q : Queue R) : Prop where
  whole : q.released.map Prod.snd++((held q.waiter).toList.map Prod.snd++BinaryHeap.drain storedRequestLe q.buffers.early) =
    releaseOrder order
  late : q.buffers.late = .empty

theorem Gathered.draining {q : Queue R} (gathered : Gathered order q) : Draining order q := by
  refine ⟨?_,gathered.late⟩
  rw [gathered.released,gathered.waiter,gathered.early]
  rfl

theorem draining_waits {q next : Queue R} (draining : Draining order q) (stocked : Stocked requests q)
    (waits : Waits q next) : Draining order next := by
  have whole := draining.whole
  cases waits with
  | pop idle popped =>
    obtain ⟨taken,_,same⟩ := pop_parts popped
    refine ⟨?_,?_⟩
    · rw [idle,BinaryHeap.drain_pop taken] at whole
      exact whole
    · rw [same]
      exact draining.late
  | register taken added =>
    rw [taken] at whole
    exact ⟨whole,draining.late⟩
  | release taken notified =>
    refine ⟨?_,draining.late⟩
    rw [taken] at whole
    simpa [held] using whole
  | unsynchronized taken notified =>
    have present := stocked.sender none _ (by rw [taken]; rfl)
    cases present
  | lose taken gone => simp [stocked.lossless] at gone

theorem draining_step {q next : Queue R} (draining : Draining order q) (stocked : Stocked requests q)
    (closed : inserted [action] = []) (ran : q.step action = some next) : Draining order next := by
  cases action with
  | insert => cases closed
  | freeFromLate id newDeadline =>
    cases Option.some.inj ran
    have absent : q.buffers.late id = none := by rw [draining.late]; rfl
    rw [Queue.freeFromLate_none absent]
    exact draining
  | wait => exact draining_waits draining stocked (wait_sound ran)
  | tick | resync => cases Option.some.inj ran; exact ⟨draining.whole,draining.late⟩

theorem draining_runs [LawfulRequest R] {q final : Queue R} (draining : Draining order q) (stocked : Stocked requests q)
    (registered : Registered q) (distinct : (requests.map Request.getId).Nodup)
    (path : Reaches Queue.step q actions final) (closed : inserted actions = []) : Draining order final := by
  induction path with
  | nil => exact draining
  | snoc earlier _ ran ih =>
    rw [inserted_append,List.append_eq_nil_iff] at closed
    have known := (stocked_runs stocked registered earlier (by rwa [closed.1,List.append_nil])).1
    exact draining_step (ih closed.1) known closed.2 ran

-- A run in which all requests arrive in this order before the waiter's first pop,
-- and which goes on until they are released.
def ReleasesAll (clock : ClockState) (order : List R) (q : Queue R) : Prop :=
  ∃ before middle after, Reaches Queue.step {clock:=clock} before middle ∧ Queue.Act.wait ∉ before ∧
    inserted before = order ∧ Reaches Queue.step middle after q ∧ inserted after = [] ∧
    q.released.length = order.length

theorem released_eq [LawfulRequest R] {clock : ClockState} {order : List R} {q : Queue R} (settled : Settled clock)
    (distinct : (order.map Request.getId).Nodup) (releases : ReleasesAll clock order q) :
    q.released.map Prod.snd = releaseOrder order := by
  obtain ⟨before,middle,after,first,patient,rfl,second,closed,all⟩ := releases
  obtain ⟨stocked,registered⟩ := stocked_runs (stocked_new clock) (registered_new clock settled) first distinct
  have whole := (draining_runs (gathered_runs first patient).draining stocked registered distinct second closed).whole
  have length := congrArg List.length whole
  rw [List.length_append,(releaseOrder_perm _).length_eq,List.length_map,all] at length
  have rest := List.length_eq_zero_iff.mp (Nat.add_eq_left.mp length)
  rw [rest,List.append_nil] at whole
  exact whole

-- The waiter can release the next request and be idle again.
theorem release_next {q : Queue R} (stocked : Stocked requests q) (registered : Registered q)
    (distinct : (requests.map Request.getId).Nodup) (idle : q.waiter = .idle)
    (popped : q.buffers.pop = some (req,sender,buffers)) :
    ∃ actions next, Reaches Queue.step q actions next ∧ inserted actions = [] ∧ next.waiter = .idle ∧
      next.buffers.early = buffers.early := by
  have settled := registered.settled (fun _ _ _ waits => by simp [idle] at waits)
  have present := (stocked_pop stocked distinct idle popped).sender sender req rfl
  obtain ⟨tx,rfl⟩ := Option.isSome_iff_exists.mp present
  have pops : q.step .wait = some {q with buffers:=buffers,waiter:=.popped (some tx) req} := by
    simp only [Queue.step,Queue.wait,idle,popped]
  let added := q.clock.addDeadline (Request.getDeadline req) q.nextChannel
  let registers : Queue R :=
    {q with buffers:=buffers,clock:=added.1,waiter:=.waiting (some tx) req q.nextChannel,
            nextChannel:=q.nextChannel+1,dropped:=q.dropped++added.2.toList}
  have awaits : Awaits (registers.resync (Request.getDeadline req)).clock (Request.getDeadline req) q.nextChannel := by
    refine ⟨?_,?_⟩
    · simp [registers,added,Queue.resync,ClockState.resync,ClockState.addDeadline,settled.1,BinaryHeap.push,
        BinaryHeap.siftUp]
    · simp [registers,added,Queue.resync,ClockState.resync,ClockState.addDeadline,settled.2]
  let ticks := ((registers.resync (Request.getDeadline req)).tick true).1
  have notified : q.nextChannel ∈ ticks.fired := by
    have fired := tick_due awaits (Nat.le_refl _)
    simp only [ticks,Queue.tick,fired]
    exact List.mem_append_right _ (List.mem_singleton.mpr rfl)
  have releases : ticks.step .wait = some {ticks with waiter:=.idle,released:=ticks.released++[(tx,req)]} := by
    have waits : ticks.waiter = .waiting (some tx) req q.nextChannel := rfl
    simp only [Queue.step,Queue.wait,waits,notified,if_true]
  have first : Reaches Queue.step q [.wait] _ := .snoc .nil trivial pops
  have second : Reaches Queue.step q [.wait,.wait] registers := .snoc first trivial rfl
  have third : Reaches Queue.step q [.wait,.wait,.resync (Request.getDeadline req)] _ := .snoc second trivial rfl
  have fourth : Reaches Queue.step q [.wait,.wait,.resync (Request.getDeadline req),.tick true] ticks :=
    .snoc third trivial rfl
  exact ⟨_,_,.snoc fourth trivial releases,rfl,rfl,rfl⟩

theorem release_rest [LawfulRequest R] {q : Queue R} (stocked : Stocked requests q) (registered : Registered q)
    (distinct : (requests.map Request.getId).Nodup) (idle : q.waiter = .idle) :
    ∃ actions final, Reaches Queue.step q actions final ∧ inserted actions = [] ∧ final.waiter = .idle ∧
      final.buffers.early = [] := by
  generalize heap : q.buffers.early = early
  induction early using BinaryHeap.pop_induction (storedRequestLe (R := R)) generalizing q with
  | empty => exact ⟨[],q,.nil,rfl,idle,heap⟩
  | pops early req rest popped ih =>
    have taken : ∃ sender buffers, q.buffers.pop = some (req,sender,buffers) ∧ buffers.early = rest := by
      simp only [Buffers.pop,heap,popped]
      exact ⟨_,_,rfl,rfl⟩
    obtain ⟨sender,buffers,taken,same⟩ := taken
    obtain ⟨actions,next,path,closed,idle',left⟩ := release_next stocked registered distinct idle taken
    have known := stocked_runs stocked registered path (by rwa [closed,List.append_nil])
    rw [closed,List.append_nil] at known
    obtain ⟨later,final,path',closed',idle'',empty⟩ := ih known.1 known.2 idle' (left.trans same)
    refine ⟨actions++later,final,path.append path',?_,idle'',empty⟩
    rw [inserted_append,closed,closed']
    rfl

theorem insert_all (clock : ClockState) (order : List R) : ∃ q : Queue R,
    Reaches Queue.step {clock:=clock} (order.map fun r => .insert r false) q := by
  induction order using List.reverseRecOn with
  | nil => exact ⟨_,.nil⟩
  | append_singleton order r ih =>
    obtain ⟨q,path⟩ := ih
    rw [List.map_append]
    exact ⟨_,.snoc path trivial rfl⟩

-- Every order of arrival has such a run.
theorem releases_all [LawfulRequest R] {clock : ClockState} (settled : Settled clock) (order : List R)
    (distinct : (order.map Request.getId).Nodup) : ∃ q, ReleasesAll clock order q := by
  obtain ⟨middle,first⟩ := insert_all clock order
  have arrived : inserted (order.map fun r => Queue.Act.insert r false) = order := by
    simp [inserted,List.filterMap_map]
  have patient : Queue.Act.wait ∉ order.map fun r => Queue.Act.insert r false := by simp
  obtain ⟨stocked,registered⟩ := stocked_runs (stocked_new clock) (registered_new clock settled) first (by rwa [arrived])
  have gathered := gathered_runs first patient
  rw [arrived] at stocked gathered
  obtain ⟨after,q,second,closed,idle,empty⟩ := release_rest stocked registered distinct gathered.waiter
  have whole := (draining_runs gathered.draining stocked registered distinct second closed).whole
  rw [idle,empty] at whole
  refine ⟨q,_,middle,after,first,patient,arrived,second,closed,?_⟩
  have length := congrArg List.length whole
  rw [(releaseOrder_perm order).length_eq] at length
  simpa [held,BinaryHeap.drain,BinaryHeap.drainUpTo] using length

-- Exchanging two requests of one deadline on arrival exchanges them on release.
theorem releaseOrder_map {f : R → R} (same : ∀ r, Request.getDeadline (f r) = Request.getDeadline r) (order : List R) :
    releaseOrder (order.map f) = (releaseOrder order).map f := by
  rw [releaseOrder,heapOf_map same]
  refine BinaryHeap.drain_map ?_ _
  intro x y
  simp only [storedRequestLe,same]

end Releases

theorem map_swap_perm [DecidableEq R] {requests : List R} (once : requests.Nodup) (inA : a ∈ requests)
    (inB : b ∈ requests) : (requests.map (Equiv.swap a b)).Perm requests := by
  have swapped : ∀ r ∈ requests, Equiv.swap a b r ∈ requests := by
    intro r member
    rw [Equiv.swap_apply_def]
    split
    · exact inB
    · split
      · exact inA
      · exact member
  refine (List.perm_ext_iff_of_nodup (once.map (Equiv.injective _)) once).mpr fun r => ?_
  rw [List.mem_map]
  constructor
  · rintro ⟨x,member,rfl⟩
    exact swapped x member
  · intro member
    exact ⟨Equiv.swap a b r,swapped r member,Equiv.swap_apply_self a b r⟩

-- Two orders of arrival lead to one order of release, for each of these sets of
-- requests, exactly if no two of them share a deadline.
theorem release_order_iff [Request R] [LawfulRequest R] (clock clock' : ClockState) (settled : Settled clock)
    (settled' : Settled clock') (requests : List R) (distinct : (requests.map Request.getId).Nodup) :
    (∀ order order' q q', order.Perm requests → order'.Perm requests → ReleasesAll clock order q →
      ReleasesAll clock' order' q' → q.released.map Prod.snd = q'.released.map Prod.snd) ↔
    (requests.map Request.getDeadline).Nodup := by
  have numbered : ∀ order : List R, order.Perm requests → (order.map Request.getId).Nodup :=
    fun order perm => (perm.map Request.getId).nodup_iff.mpr distinct
  constructor
  · intro same
    classical
    have once : requests.Nodup := distinct.of_map _
    rw [List.nodup_map_iff_inj_on once]
    intro a inA b inB level
    have exchanged : ∀ r, Request.getDeadline (Equiv.swap a b r) = Request.getDeadline r := by
      intro r
      rw [Equiv.swap_apply_def]
      split
      · rename_i first; rw [first,level]
      · split
        · rename_i _ second; rw [second,level]
        · rfl
    have perm := map_swap_perm once inA inB
    obtain ⟨q,releases⟩ := releases_all settled requests distinct
    obtain ⟨q',releases'⟩ := releases_all settled' _ (numbered _ perm)
    have agree := same _ _ q q' (.refl _) perm releases releases'
    rw [released_eq settled distinct releases,released_eq settled' (numbered _ perm) releases',
      releaseOrder_map exchanged] at agree
    have fixed := List.map_id (releaseOrder requests) |>.trans agree
    have unmoved := List.map_inj_left.mp fixed a ((releaseOrder_perm requests).mem_iff.mpr inA)
    rw [Equiv.swap_apply_left] at unmoved
    exact unmoved
  · intro apart order order' q q' perm perm' releases releases'
    rw [released_eq settled (numbered _ perm) releases,released_eq settled' (numbered _ perm') releases']
    exact releaseOrder_unique (perm.trans perm'.symm) ((perm.map _).nodup_iff.mpr apart)

-- Three requests, the last to arrive in one order due first.
def dueApart : List Command := [sample 0 1005,sample 1 1004,sample 2 1003]

theorem release_order_apart : ∃ q q' : Queue Command, ReleasesAll arrivalClock dueApart q ∧
    ReleasesAll arrivalClock dueApart.reverse q' ∧ q.released.map Prod.snd = q'.released.map Prod.snd := by
  have settled : Settled arrivalClock := ⟨rfl,rfl⟩
  obtain ⟨q,releases⟩ := releases_all settled dueApart (by decide)
  obtain ⟨q',releases'⟩ := releases_all settled dueApart.reverse (by decide)
  have same := (release_order_iff _ _ settled settled dueApart (by decide)).mpr (by decide)
  exact ⟨q,q',releases,releases',same _ _ q q' (.refl _) (List.reverse_perm _) releases releases'⟩

def dueTogether : List Command := [sample 0 1005,sample 1 1005]

theorem release_order_differs : ¬ ∀ (clock : ClockState) (requests order order' : List Command) (q q' : Queue Command),
    Settled clock → (requests.map Request.getId).Nodup → order.Perm requests → order'.Perm requests →
    ReleasesAll clock order q → ReleasesAll clock order' q' →
    q.released.map Prod.snd = q'.released.map Prod.snd := by
  intro same
  have settled : Settled arrivalClock := ⟨rfl,rfl⟩
  obtain ⟨q,releases⟩ := releases_all settled dueTogether (by decide)
  obtain ⟨q',releases'⟩ := releases_all settled dueTogether.reverse (by decide)
  have claimed := same _ dueTogether _ _ q q' settled (by decide) (.refl _) (List.reverse_perm _) releases releases'
  rw [released_eq settled (by decide) releases,released_eq settled (by decide) releases'] at claimed
  exact absurd claimed (by decide)

end OmniPaxosKV.Arrival

import OmniPaxosKV.Timekeeping

-- The deadlines registered with a clock, from the tick that sees them pass to the tasks
-- that notify their receivers.
namespace OmniPaxosKV

-- Beside the clock: the deadline of every registration in the order of their channels,
-- those that a processed tick has seen pass, the tasks that each processing spawned and
-- those of them still to run, the receivers notified, and the senders that a second
-- registration of their time dropped. The tick loop holds the lock while `processing`.
structure Firing where
  clock : ClockState
  processing : Bool := false
  registered : List SystemTime := []
  due : List Channel := []
  spawned : List (List Channel) := []
  outstanding : List Channel := []
  notified : List Channel := []
  dropped : List Channel := []

namespace Firing
open Machine

def new (master : NodeId) (drift uncertainty : Duration) (syncFreq : Nat) (now : SystemTime) : Firing :=
  {clock:=.new master drift uncertainty syncFreq now}

-- The registrations that a tick sees pass for the first time.
def passing (s : Firing) (time : SystemTime) : List Channel :=
  (List.range s.registered.length).filter fun ch => ch ∉ s.due ∧ s.registered.getD ch time < time

inductive Act where
  | tick (fast : Bool)
  | send (place : Nat)
  | processed
  | resync (realTime : SystemTime)
  | addDeadline (deadline : SystemTime)

-- The loop over the deadlines hands each sender to a task of its own. A task may run as
-- soon as it is spawned, in any order with the others; it touches nothing that the loop
-- reads, so its step can stand after the loop's last. Every receiver is kept until then.
def step (s : Firing) : Act → Option Firing
  | .tick fast =>
    if s.processing then none else
    let ticked := s.clock.tick fast
    some {s with clock:=ticked.1,processing:=true,due:=s.due++s.passing ticked.1.logicalTime,
                 spawned:=s.spawned++[ticked.2.1],outstanding:=s.outstanding++ticked.2.1}
  | .send place => match s.outstanding[place]? with
    | none => none
    | some ch => some {s with outstanding:=s.outstanding.eraseIdx place,notified:=s.notified++[ch]}
  | .processed => if s.processing then some {s with processing:=false} else none
  | .resync realTime => if s.processing then none else some {s with clock:=s.clock.resync realTime}
  | .addDeadline deadline =>
    if s.processing then none else
    let added := s.clock.addDeadline deadline s.registered.length
    some {s with clock:=added.1,registered:=s.registered++[deadline],dropped:=s.dropped++added.2.toList}

-- The heap and the map hold the same times, each once.
structure Matched (c : ClockState) : Prop where
  ordered : BinaryHeap.Ordered ClockState.reverseLe c.deadlines
  single : c.deadlines.Nodup
  listed : ∀ deadline, deadline ∈ c.deadlines ↔ (c.database deadline).isSome = true

theorem reverseLe_total (a b : SystemTime) : ClockState.reverseLe a b = true ∨ ClockState.reverseLe b a = true := by
  simp only [ClockState.reverseLe,decide_eq_true_eq]
  exact Nat.le_total b a

theorem reverseLe_trans (a b c : SystemTime) (one : ClockState.reverseLe a b = true)
    (two : ClockState.reverseLe b c = true) : ClockState.reverseLe a c = true := by
  simp only [ClockState.reverseLe,decide_eq_true_eq] at *
  exact Nat.le_trans two one

-- What the loop over the deadlines does to a clock whose containers are in step.
structure Processed (c next : ClockState) (senders : List Channel) : Prop where
  matched : Matched next
  database : ∀ deadline, next.database deadline = if deadline < c.logicalTime then none else c.database deadline
  taken : ∀ ch, ch ∈ senders ↔ ∃ deadline, deadline < c.logicalTime ∧ c.database deadline = some ch
  order : senders.Pairwise fun a b => ∃ x y, c.database x = some a ∧ c.database y = some b ∧ x < y

theorem processed_none {c : ClockState} (matched : Matched c)
    (future : ∀ deadline ∈ c.deadlines, c.logicalTime ≤ deadline) : Processed c c [] := by
  have absent : ∀ deadline, deadline < c.logicalTime → c.database deadline = none := by
    intro deadline past
    by_contra some
    have member := (matched.listed deadline).mpr (Option.isSome_iff_ne_none.mpr some)
    exact absurd past (Nat.not_lt.mpr (future deadline member))
  refine ⟨matched,?_,?_,.nil⟩
  · intro deadline
    split
    · exact absent deadline ‹_›
    · rfl
  · intro ch
    refine ⟨nofun,?_⟩
    rintro ⟨deadline,past,known⟩
    rw [absent deadline past] at known
    cases known

theorem Matched.pop {c : ClockState} (matched : Matched c)
    (popped : BinaryHeap.pop ClockState.reverseLe c.deadlines = some (first,rest)) :
    Matched {c with deadlines:=rest,database:=c.database.remove first} := by
  have perm := BinaryHeap.pop_perm popped
  obtain ⟨gone,single⟩ := List.nodup_cons.mp (perm.nodup_iff.mp matched.single)
  refine ⟨BinaryHeap.pop_ordered reverseLe_total reverseLe_trans matched.ordered popped,single,?_⟩
  intro deadline
  have listed := matched.listed deadline
  rw [perm.mem_iff,List.mem_cons] at listed
  simp only [KeyMap.remove_apply]
  split
  · rename_i same
    exact ⟨fun member => absurd (same ▸ member) gone,fun wrong => absurd wrong (by simp)⟩
  · rename_i other
    rw [←listed]
    exact ⟨.inr,fun member => member.resolve_left other⟩

theorem Matched.least {c : ClockState} (matched : Matched c)
    (popped : BinaryHeap.pop ClockState.reverseLe c.deadlines = some (first,rest)) :
    ∀ deadline ∈ c.deadlines, first ≤ deadline := by
  intro deadline member
  have le := BinaryHeap.pop_greatest reverseLe_total reverseLe_trans matched.ordered popped member
  simpa only [ClockState.reverseLe,decide_eq_true_eq] using le

-- The task for the earliest deadline is spawned before those of the rest of the loop.
theorem Processed.cons {c next : ClockState} (matched : Matched c)
    (popped : BinaryHeap.pop ClockState.reverseLe c.deadlines = some (first,rest)) (past : first < c.logicalTime)
    (known : c.database first = some sender)
    (rested : Processed {c with deadlines:=rest,database:=c.database.remove first} next senders) :
    Processed c next (sender::senders) := by
  -- What is still registered afterwards is for a later time.
  have others : ∀ deadline ch, c.database.remove first deadline = some ch →
      c.database deadline = some ch ∧ first < deadline := by
    intro deadline ch found
    rw [KeyMap.remove_apply] at found
    split at found
    · cases found
    · rename_i other
      have member := (matched.listed deadline).mpr (Option.isSome_iff_exists.mpr ⟨ch,found⟩)
      exact ⟨found,Nat.lt_of_le_of_ne (matched.least popped deadline member) (Ne.symm other)⟩
  refine ⟨rested.matched,?_,?_,?_⟩
  · intro deadline
    rw [rested.database]
    dsimp only
    split
    · rfl
    · rename_i later
      refine KeyMap.remove_of_ne _ ?_
      rintro rfl
      exact later past
  · intro ch
    rw [List.mem_cons,rested.taken]
    constructor
    · rintro (rfl | ⟨deadline,before,found⟩)
      · exact ⟨first,past,known⟩
      · exact ⟨deadline,before,(others deadline ch found).1⟩
    · rintro ⟨deadline,before,found⟩
      by_cases same : deadline = first
      · subst deadline
        exact .inl (Option.some.inj (found.symm.trans known))
      · exact .inr ⟨deadline,before,(KeyMap.remove_of_ne _ same).trans found⟩
  · refine List.pairwise_cons.mpr ⟨?_,rested.order.imp ?_⟩
    · intro ch member
      obtain ⟨deadline,_,found⟩ := (rested.taken ch).mp member
      exact ⟨first,deadline,known,(others deadline ch found).1,(others deadline ch found).2⟩
    · rintro a b ⟨x,y,left,right,less⟩
      exact ⟨x,y,(others x a left).1,(others y b right).1,less⟩

theorem processDeadlines_spec {c : ClockState} (fuel : Nat) (matched : Matched c) (enough : c.deadlines.length ≤ fuel) :
    Processed c (c.processDeadlines fuel).1 (c.processDeadlines fuel).2 := by
  induction fuel generalizing c with
  | zero =>
    refine processed_none matched fun deadline member => ?_
    rw [List.length_eq_zero_iff.mp (Nat.le_zero.mp enough)] at member
    cases member
  | succ fuel ih =>
    unfold ClockState.processDeadlines
    split
    · rename_i empty
      refine processed_none matched fun deadline member => ?_
      rw [BinaryHeap.pop_none empty] at member
      cases member
    · rename_i first rest popped
      have perm := BinaryHeap.pop_perm popped
      split
      · rename_i past
        have length := perm.length_eq
        rw [List.length_cons] at length
        have rested := ih (matched.pop popped) (by dsimp only; omega)
        obtain ⟨sender,known⟩ := Option.isSome_iff_exists.mp ((matched.listed first).mp (perm.mem_iff.mpr List.mem_cons_self))
        simp only [known,Option.toList_some,List.singleton_append]
        exact .cons matched popped past known rested
      · rename_i future
        refine processed_none matched fun deadline member => ?_
        exact Nat.le_trans (Nat.le_of_not_lt future) (matched.least popped deadline member)

variable {times : List SystemTime} {a b ch : Channel}

def NotLater (times : List SystemTime) (a b : Channel) : Prop :=
  ∀ x y, times[a]? = some x → times[b]? = some y → x ≤ y

def Earlier (times : List SystemTime) (a b : Channel) : Prop :=
  ∃ x y, times[a]? = some x ∧ times[b]? = some y ∧ x < y

-- At the end of each processing the notified receivers are those of the deadlines seen to
-- pass. Each is notified once, no sender is dropped, and the receivers of one processing
-- are notified in the order of their deadlines.
structure AllFire (s : Firing) : Prop where
  exactly : s.processing = false → ∀ ch, ch ∈ s.notified ↔ ch ∈ s.due
  once : s.notified.Nodup
  kept : s.dropped = []
  order : ∀ batch ∈ s.spawned, (s.notified.filter fun ch => ch ∈ batch).Pairwise (NotLater s.registered)

-- The tasks that a processing spawned after the one for `ch`.
def later (batch : List Channel) (ch : Channel) : List Channel := (batch.dropWhile (· ≠ ch)).tail

-- The tasks run in the order in which a processing spawns them, and before it returns.
def Prompt (s : Firing) : Act → Prop
  | .send place => ∀ ch ∈ s.outstanding[place]?, ∀ batch ∈ s.spawned, ch ∈ batch →
      ∀ other ∈ later batch ch, other ∉ s.notified
  | .processed => s.outstanding = []
  | _ => True

-- A time is registered when no registration for it is pending.
def Unclaimed (s : Firing) : Act → Prop
  | .addDeadline deadline => s.clock.database deadline = none
  | _ => True

def Orderly (s : Firing) (action : Act) : Prop := Unclaimed s action ∧ Prompt s action

structure Ready (s : Firing) : Prop where
  matched : Matched s.clock
  pending : ∀ deadline ch, s.clock.database deadline = some ch ↔ s.registered[ch]? = some deadline ∧ ch ∉ s.due
  known : ∀ ch ∈ s.due, ch < s.registered.length
  tasks : ∀ ch, ch ∈ s.notified++s.outstanding ↔ ch ∈ s.due
  once : (s.notified++s.outstanding).Nodup
  order : ∀ batch ∈ s.spawned, batch.Pairwise (Earlier s.registered)

theorem mem_passing (s : Firing) (time : SystemTime) (ch : Channel) : ch ∈ s.passing time ↔
    ∃ deadline, deadline < time ∧ s.registered[ch]? = some deadline ∧ ch ∉ s.due := by
  unfold passing
  simp only [List.mem_filter,List.mem_range,decide_eq_true_eq,List.getD_eq_getElem?_getD]
  constructor
  · rintro ⟨inside,fresh,past⟩
    rw [List.getElem?_eq_getElem inside,Option.getD_some] at past
    exact ⟨_,past,List.getElem?_eq_getElem inside,fresh⟩
  · rintro ⟨deadline,past,found,fresh⟩
    rw [found]
    exact ⟨(List.getElem?_eq_some_iff.mp found).1,fresh,past⟩

theorem Earlier.notLater (earlier : Earlier times a b) : NotLater times a b := by
  obtain ⟨x,y,first,second,less⟩ := earlier
  intro x' y' found found'
  rw [Option.some.inj (found.symm.trans first),Option.some.inj (found'.symm.trans second)]
  exact Nat.le_of_lt less

theorem Earlier.not_notLater (earlier : Earlier times a b) : ¬ NotLater times b a := by
  obtain ⟨x,y,first,second,less⟩ := earlier
  intro notLater
  exact absurd (notLater y x second first) (Nat.not_le.mpr less)

theorem Earlier.ne (earlier : Earlier times a b) : a ≠ b := by
  rintro rfl
  exact earlier.not_notLater earlier.notLater

theorem Earlier.grown (earlier : Earlier times a b) (deadline : SystemTime) : Earlier (times++[deadline]) a b := by
  obtain ⟨x,y,first,second,less⟩ := earlier
  exact ⟨x,y,getElem?_grown (List.prefix_append ..) first,getElem?_grown (List.prefix_append ..) second,less⟩

theorem NotLater.grown (notLater : NotLater times a b) (left : a < times.length) (right : b < times.length)
    (deadline : SystemTime) : NotLater (times++[deadline]) a b := by
  intro x y found found'
  rw [List.getElem?_append_left left] at found
  rw [List.getElem?_append_left right] at found'
  exact notLater x y found found'

-- In a processing's order of deadlines, only the tasks spawned after `ch` come too soon.
theorem mem_later {batch : List Channel} (sorted : batch.Pairwise (Earlier times)) (member : ch ∈ batch)
    (other : Channel) (present : other ∈ batch) : other ∈ later batch ch ↔ ¬ NotLater times other ch := by
  obtain ⟨before,after,rfl,_⟩ := List.eq_append_cons_of_mem member
  obtain ⟨_,behind,ahead⟩ := List.pairwise_append.mp sorted
  have last : later (before++ch::after) ch = after := by
    rw [later,List.dropWhile_append_of_pos]
    · simp
    · intro a held
      exact decide_eq_true (ahead a held ch List.mem_cons_self).ne
  rw [last]
  constructor
  · intro held
    exact ((List.pairwise_cons.mp behind).1 other held).not_notLater
  · intro late
    rcases List.mem_append.mp present with held | held
    · exact absurd (ahead other held ch List.mem_cons_self).notLater late
    · rcases List.mem_cons.mp held with rfl | held
      · refine absurd (fun x y found found' => ?_) late
        exact Nat.le_of_eq (Option.some.inj (found.symm.trans found'))
      · exact held

-- What a processing spawns is what its tick has seen pass.
theorem Ready.processed {s : Firing} (ready : Ready s) {c next : ClockState} {senders : List Channel}
    (processed : Processed c next senders) (database : c.database = s.clock.database) (ch : Channel) :
    ch ∈ senders ↔ ch ∈ s.passing c.logicalTime := by
  rw [processed.taken,mem_passing]
  simp only [database,ready.pending]

theorem Ready.in_order {s : Firing} (ready : Ready s) {c next : ClockState} {senders : List Channel}
    (processed : Processed c next senders) (database : c.database = s.clock.database) :
    senders.Pairwise (Earlier s.registered) := by
  refine processed.order.imp ?_
  rintro a b ⟨x,y,left,right,less⟩
  rw [database] at left right
  exact ⟨x,y,((ready.pending x a).mp left).1,((ready.pending y b).mp right).1,less⟩

theorem Ready.still_pending {s : Firing} (ready : Ready s) {c next : ClockState} {senders : List Channel}
    (processed : Processed c next senders) (database : c.database = s.clock.database) (deadline : SystemTime) (ch : Channel) :
    next.database deadline = some ch ↔ s.registered[ch]? = some deadline ∧ ch ∉ s.due++s.passing c.logicalTime := by
  rw [processed.database deadline,List.mem_append,not_or,mem_passing]
  split
  · rename_i past
    refine ⟨nofun,?_⟩
    rintro ⟨registered,old,new⟩
    exact absurd ⟨deadline,past,registered,old⟩ new
  · rename_i future
    rw [database,ready.pending]
    refine ⟨fun ⟨registered,old⟩ => ⟨registered,old,?_⟩,fun ⟨registered,old,_⟩ => ⟨registered,old⟩⟩
    rintro ⟨other,past,found,_⟩
    rw [Option.some.inj (registered.symm.trans found)] at future
    exact future past

-- A tick spawns a task for each of the deadlines it sees pass, in their order.
theorem tick_spawns {s next : Firing} (ready : Ready s) (ran : s.step (.tick fast) = some next) :
    s.processing = false ∧ Ready next ∧ ∃ senders, (∀ ch ∈ senders, ch ∉ s.due) ∧
      next = {s with clock:=next.clock,processing:=true,due:=next.due
                     spawned:=s.spawned++[senders],outstanding:=s.outstanding++senders} := by
  simp only [step] at ran
  split at ran
  · cases ran
  rename_i free
  cases Option.some.inj ran
  let started : ClockState :=
    {s.clock with counter:=s.clock.counter+1,logicalTime:=s.clock.logicalTime+Timekeeping.elapsed s.clock.drift fast}
  have processed : Processed started _ _ := processDeadlines_spec (c := started) s.clock.deadlines.length
    ⟨ready.matched.ordered,ready.matched.single,ready.matched.listed⟩ (Nat.le_refl _)
  obtain ⟨senders,whole⟩ := Timekeeping.tick_eq s.clock fast
  dsimp only at senders whole
  have time : (s.clock.tick fast).1.logicalTime = started.logicalTime := (Timekeeping.tick_fields s.clock fast).2.2.2.1
  have same := ready.processed processed rfl
  have ordered := ready.in_order processed rfl
  rw [←senders] at same ordered
  have fresh : ∀ ch ∈ (s.clock.tick fast).2.1, ch ∉ s.due := by
    intro ch member
    obtain ⟨_,_,_,unseen⟩ := (mem_passing ..).mp ((same ch).mp member)
    exact unseen
  refine ⟨Bool.eq_false_of_not_eq_true free,⟨?_,?_,?_,?_,?_,?_⟩,_,fresh,rfl⟩
  · dsimp only
    rw [whole]
    exact ⟨processed.matched.ordered,processed.matched.single,processed.matched.listed⟩
  · intro deadline ch
    dsimp only
    rw [time,whole]
    exact ready.still_pending processed rfl deadline ch
  · intro ch member
    rcases List.mem_append.mp member with old | new
    · exact ready.known ch old
    · obtain ⟨deadline,_,found,_⟩ := (mem_passing ..).mp new
      exact (List.getElem?_eq_some_iff.mp found).1
  · intro ch
    dsimp only
    rw [←List.append_assoc,List.mem_append,ready.tasks,List.mem_append,time,same]
  · dsimp only
    rw [←List.append_assoc]
    refine List.nodup_append.mpr ⟨ready.once,ordered.imp Earlier.ne,?_⟩
    rintro a old b new rfl
    exact fresh a new ((ready.tasks a).mp old)
  · intro batch member
    rcases List.mem_append.mp member with old | new
    · exact ready.order batch old
    · cases List.mem_singleton.mp new
      exact ordered

theorem step_tick {s next : Firing} (ready : Ready s) (fires : AllFire s) (ran : s.step (.tick fast) = some next) :
    AllFire next := by
  obtain ⟨free,_,senders,fresh,same⟩ := tick_spawns ready ran
  rw [same]
  refine ⟨nofun,fires.once,fires.kept,?_⟩
  intro batch member
  rcases List.mem_append.mp member with old | new
  · exact fires.order batch old
  · cases List.mem_singleton.mp new
    have none : (s.notified.filter fun ch => ch ∈ senders) = [] := by
      refine List.filter_eq_nil_iff.mpr fun ch notified member => ?_
      exact fresh ch (of_decide_eq_true member) ((fires.exactly free ch).mp notified)
    rw [none]
    exact .nil

theorem ready_send {s next : Firing} (ready : Ready s) (ran : s.step (.send place) = some next) : Ready next := by
  simp only [step] at ran
  split at ran
  · cases ran
  rename_i ch found
  cases ran
  have perm : (s.notified++[ch]++s.outstanding.eraseIdx place).Perm (s.notified++s.outstanding) := by
    obtain ⟨inside,rfl⟩ := List.getElem?_eq_some_iff.mp found
    rw [List.append_assoc]
    exact (List.getElem_cons_eraseIdx_perm inside).append_left _
  exact ⟨ready.matched,ready.pending,ready.known,fun other => perm.mem_iff.trans (ready.tasks other),
    perm.nodup_iff.mpr ready.once,ready.order⟩

theorem send_exact {s next : Firing} (ready : Ready s) (fires : AllFire s) (ran : s.step (.send place) = some next) :
    AllFire next ↔ Prompt s (.send place) := by
  have ready' := ready_send ready ran
  simp only [step] at ran
  split at ran
  · cases ran
  rename_i ch found
  cases ran
  have waiting : ch ∈ s.outstanding := List.mem_of_getElem? found
  have unsent : ch ∉ s.notified := fun sent => (List.nodup_append.mp ready.once).2.2 ch sent ch waiting rfl
  have busy : ¬ s.processing = false := by
    intro free
    exact unsent ((fires.exactly free ch).mpr ((ready.tasks ch).mp (List.mem_append_right _ waiting)))
  -- Only the batches of the task itself see it come.
  have sorted : ∀ batch ∈ s.spawned, ((s.notified++[ch]).filter fun other => other ∈ batch).Pairwise (NotLater s.registered) ↔
      (ch ∈ batch → ∀ other ∈ later batch ch, other ∉ s.notified) := by
    intro batch member
    by_cases own : ch ∈ batch
    · have kept : [ch].filter (fun other => other ∈ batch) = [ch] := by simp [own]
      rw [List.filter_append,kept,List.pairwise_append]
      constructor
      · rintro ⟨_,_,notLater⟩ _ other after sent
        have present : other ∈ batch := (List.dropWhile_suffix _).subset (List.mem_of_mem_tail after)
        refine (mem_later (ready.order batch member) own other present).mp after ?_
        exact notLater other (List.mem_filter.mpr ⟨sent,decide_eq_true present⟩) ch List.mem_cons_self
      · intro inOrder
        refine ⟨fires.order batch member,List.pairwise_singleton ..,?_⟩
        intro other held last single
        cases List.mem_singleton.mp single
        obtain ⟨sent,present⟩ := List.mem_filter.mp held
        by_contra late
        exact inOrder own other ((mem_later (ready.order batch member) own other (of_decide_eq_true present)).mpr late) sent
    · have none : [ch].filter (fun other => other ∈ batch) = [] := by simp [own]
      rw [List.filter_append,none,List.append_nil]
      exact iff_of_true (fires.order batch member) fun held => absurd held own
  constructor
  · intro fires' ch' same batch member
    cases found.symm.trans same
    exact (sorted batch member).mp (fires'.order batch member)
  · intro prompt
    refine ⟨fun free => absurd free busy,?_,fires.kept,fun batch member => ?_⟩
    · exact (List.nodup_append.mp ready'.once).1
    · exact (sorted batch member).mpr (prompt ch found batch member)

theorem ready_processed {s next : Firing} (ready : Ready s) (ran : s.step .processed = some next) : Ready next := by
  simp only [step] at ran
  split at ran <;> cases ran
  exact ⟨ready.matched,ready.pending,ready.known,ready.tasks,ready.once,ready.order⟩

theorem processed_exact {s next : Firing} (ready : Ready s) (fires : AllFire s) (ran : s.step .processed = some next) :
    AllFire next ↔ Prompt s .processed := by
  simp only [step] at ran
  split at ran <;> cases ran
  constructor
  · intro fires'
    refine List.eq_nil_iff_forall_not_mem.mpr fun ch waiting => ?_
    have sent := (fires'.exactly rfl ch).mpr ((ready.tasks ch).mp (List.mem_append_right _ waiting))
    exact (List.nodup_append.mp ready.once).2.2 ch sent ch waiting rfl
  · intro settled
    have none : s.outstanding = [] := settled
    refine ⟨fun _ ch => ?_,fires.once,fires.kept,fires.order⟩
    rw [←ready.tasks ch,none,List.append_nil]

-- A time with no pending registration goes into both containers.
theorem Matched.add {c : ClockState} (matched : Matched c) (unclaimed : c.database deadline = none) (tx : Channel) :
    Matched (c.addDeadline deadline tx).1 := by
  have perm := BinaryHeap.push_perm ClockState.reverseLe c.deadlines deadline
  have absent : deadline ∉ c.deadlines := by
    intro member
    have some := (matched.listed deadline).mp member
    rw [unclaimed] at some
    cases some
  refine ⟨?_,?_,?_⟩
  · exact BinaryHeap.push_ordered reverseLe_total reverseLe_trans _ _ matched.ordered
  · exact perm.nodup_iff.mpr (List.nodup_cons.mpr ⟨absent,matched.single⟩)
  · intro other
    simp only [ClockState.addDeadline,perm.mem_iff,List.mem_cons,KeyMap.insert_apply,matched.listed]
    split
    · rename_i same
      exact iff_of_true (.inl same) rfl
    · rename_i distinct
      exact ⟨fun either => either.resolve_left distinct,.inr⟩

theorem Ready.pending_add {s : Firing} (ready : Ready s) (unclaimed : s.clock.database deadline = none)
    (other : SystemTime) (ch : Channel) :
    (s.clock.addDeadline deadline s.registered.length).1.database other = some ch ↔
      (s.registered++[deadline])[ch]? = some other ∧ ch ∉ s.due := by
  have older : ∀ ch x, s.registered[ch]? = some x → (s.registered++[deadline])[ch]? = some x :=
    fun ch x found => getElem?_grown (List.prefix_append ..) found
  simp only [ClockState.addDeadline,KeyMap.insert_apply]
  split
  · rename_i same
    subst other
    constructor
    · intro own
      cases Option.some.inj own
      exact ⟨by simp,fun due => absurd (ready.known _ due) (Nat.lt_irrefl _)⟩
    · rintro ⟨found,fresh⟩
      rcases getElem?_concat_cases found with old | ⟨place,_⟩
      · have registered := (ready.pending deadline ch).mpr ⟨old,fresh⟩
        rw [unclaimed] at registered
        cases registered
      · rw [place]
  · rename_i distinct
    rw [ready.pending]
    refine and_congr_left fun fresh => ⟨older ch other,fun found => ?_⟩
    rcases getElem?_concat_cases found with old | ⟨_,same⟩
    · exact old
    · exact absurd same distinct

theorem addDeadline_dropped {s next : Firing} (ran : s.step (.addDeadline deadline) = some next) (none : s.dropped = []) :
    next.dropped = [] ↔ Unclaimed s (.addDeadline deadline) := by
  simp only [step] at ran
  split at ran <;> cases ran
  simp only [none,List.nil_append,ClockState.addDeadline,Unclaimed]
  cases s.clock.database deadline <;> simp

theorem ready_add {s next : Firing} (ready : Ready s) (unclaimed : Unclaimed s (.addDeadline deadline))
    (ran : s.step (.addDeadline deadline) = some next) : Ready next := by
  simp only [step] at ran
  split at ran <;> cases ran
  refine ⟨ready.matched.add unclaimed _,ready.pending_add unclaimed,?_,ready.tasks,ready.once,?_⟩
  · intro ch due
    rw [List.length_append,List.length_singleton]
    exact Nat.lt_succ_of_lt (ready.known ch due)
  · exact fun batch member => (ready.order batch member).imp fun earlier => earlier.grown deadline

theorem add_fires {s next : Firing} (ready : Ready s) (fires : AllFire s) (unclaimed : Unclaimed s (.addDeadline deadline))
    (ran : s.step (.addDeadline deadline) = some next) : AllFire next := by
  have kept := (addDeadline_dropped ran fires.kept).mpr unclaimed
  simp only [step] at ran
  split at ran <;> cases ran
  have inside : ∀ ch ∈ s.notified, ch < s.registered.length :=
    fun ch sent => ready.known ch ((ready.tasks ch).mp (List.mem_append_left _ sent))
  refine ⟨fires.exactly,fires.once,kept,?_⟩
  intro batch member
  refine (fires.order batch member).imp_of_mem fun left right notLater => ?_
  exact notLater.grown (inside _ (List.mem_filter.mp left).1) (inside _ (List.mem_filter.mp right).1) deadline

theorem step_dropped {s next : Firing} (ran : s.step action = some next) : s.dropped <+: next.dropped := by
  cases action <;> simp only [step] at ran
  case addDeadline =>
    split at ran <;> cases ran
    exact List.prefix_append ..
  all_goals
    split at ran <;> cases ran
    exact List.prefix_refl _

theorem step_exact {s next : Firing} (ready : Ready s) (ran : s.step action = some next) :
    (next.dropped = [] → Ready next) ∧ (AllFire s → (AllFire next ↔ Orderly s action)) := by
  unfold Orderly
  cases action with
  | tick fast =>
    obtain ⟨_,ready',_⟩ := tick_spawns ready ran
    exact ⟨fun _ => ready',fun fires => iff_of_true (step_tick ready fires ran) ⟨trivial,trivial⟩⟩
  | send place =>
    refine ⟨fun _ => ready_send ready ran,fun fires => ?_⟩
    rw [send_exact ready fires ran]
    exact (and_iff_right trivial).symm
  | processed =>
    refine ⟨fun _ => ready_processed ready ran,fun fires => ?_⟩
    rw [processed_exact ready fires ran]
    exact (and_iff_right trivial).symm
  | resync realTime =>
    simp only [step] at ran
    split at ran <;> cases ran
    refine ⟨fun _ => ?_,fun fires => iff_of_true ?_ ⟨trivial,trivial⟩⟩
    · exact ⟨⟨ready.matched.ordered,ready.matched.single,ready.matched.listed⟩,ready.pending,ready.known,ready.tasks,
        ready.once,ready.order⟩
    · exact ⟨fires.exactly,fires.once,fires.kept,fires.order⟩
  | addDeadline deadline =>
    have kept : next.dropped = [] → Unclaimed s (.addDeadline deadline) := fun none =>
      (addDeadline_dropped ran (List.prefix_nil.mp (none ▸ step_dropped ran))).mp none
    refine ⟨fun none => ready_add ready (kept none) ran,fun fires => ?_⟩
    constructor
    · exact fun fires' => ⟨kept fires'.kept,trivial⟩
    · exact fun orderly => add_fires ready fires orderly.1 ran

theorem ready_new (master : NodeId) (drift uncertainty : Duration) (syncFreq : Nat) (now : SystemTime) :
    Ready (new master drift uncertainty syncFreq now) := by
  refine ⟨⟨BinaryHeap.ordered_nil,.nil,?_⟩,?_,?_,?_,.nil,?_⟩
  · intro deadline; simp [new,ClockState.new]
  · intro deadline ch; simp [new,ClockState.new]
  · intro ch member; cases member
  · intro ch; rfl
  · intro batch member; cases member

-- Every registered deadline fires once, in order, by the end of the processing that sees
-- it pass and with its own receiver, exactly when no time is registered again while a
-- registration for it is pending, and the tasks of a processing run in order and before
-- it returns.
theorem all_fire_iff (master : NodeId) (drift uncertainty : Duration) (syncFreq : Nat) (now : SystemTime)
    (path : Reaches step (new master drift uncertainty syncFreq now) actions s) :
    (∀ state ∈ visited step (new master drift uncertainty syncFreq now) actions, AllFire state) ↔
      Runs step Orderly (new master drift uncertainty syncFreq now) actions s := by
  -- While no sender has been dropped, the two containers are in step.
  refine visited_iff AllFire (fun s => s.dropped = [] → Ready s) ?_ ?_ path (fun _ => ready_new ..) ?_
  · intro s action next valid _ ran none
    have ready := valid (List.prefix_nil.mp (none ▸ step_dropped ran))
    exact (step_exact ready ran).1 none
  · intro s action next valid fires _ ran
    exact (step_exact (valid fires.kept) ran).2 fires
  · refine ⟨fun _ ch => Iff.rfl,.nil,rfl,?_⟩
    intro batch member
    cases member

instance (s : Firing) : (action : Act) → Decidable (Prompt s action)
  | .send place => inferInstanceAs (Decidable (∀ ch ∈ s.outstanding[place]?, _))
  | .processed => inferInstanceAs (Decidable (_ = _))
  | .tick _ => .isTrue trivial
  | .resync _ => .isTrue trivial
  | .addDeadline _ => .isTrue trivial

instance (s : Firing) : (action : Act) → Decidable (Unclaimed s action)
  | .addDeadline _ => inferInstanceAs (Decidable (_ = _))
  | .send _ => .isTrue trivial
  | .processed => .isTrue trivial
  | .tick _ => .isTrue trivial
  | .resync _ => .isTrue trivial

instance (s : Firing) (action : Act) : Decidable (Orderly s action) := inferInstanceAs (Decidable (_ ∧ _))

def sampleStart : Firing := new 2 (Duration.fromMicros 10) (Duration.fromMicros 10) 3 0

-- Three registrations out of order, of which two fire at one tick; the last time is
-- registered again once it has fired.
def registeredApart : List Act :=
  [.addDeadline 2500000,.addDeadline 900000,.addDeadline 500000,.tick true,.send 0,.send 0,.processed,.tick false,.processed,
    .resync 3000000,.tick true,.send 0,.processed,.addDeadline 500000,.tick false,.send 0,.processed]

theorem all_fire_apart : ∃ s, Reaches step sampleStart registeredApart s ∧ s.notified = [2,1,0,3] ∧
    ∀ state ∈ visited step sampleStart registeredApart, AllFire state := by
  obtain ⟨s,path,sent⟩ := run_reaches step Orderly (fun s => s.notified = [2,1,0,3]) sampleStart registeredApart
    (by decide +kernel)
  have reached := path.weaken fun _ _ _ => trivial
  exact ⟨s,reached,sent,(all_fire_iff 2 _ _ 3 0 reached).mpr path⟩

-- Two registrations of one time: the first receiver is never notified, though every task
-- runs in order and in time.
theorem shared_deadline_dropped : ¬ ∀ (master : NodeId) (drift uncertainty : Duration) (syncFreq : Nat) (now : SystemTime)
    (actions : List Act) (s : Firing),
    Runs step Prompt (new master drift uncertainty syncFreq now) actions s → AllFire s := by
  intro fire
  obtain ⟨s,path,ended,silent,due⟩ := run_reaches step Prompt
    (fun s => s.processing = false ∧ 0 ∉ s.notified ∧ 0 ∈ s.due) sampleStart
    [.addDeadline 500000,.addDeadline 500000,.tick true,.send 0,.processed] (by decide +kernel)
  exact silent (((fire 2 _ _ 3 0 _ s path).exactly ended 0).mpr due)

end Firing
end OmniPaxosKV

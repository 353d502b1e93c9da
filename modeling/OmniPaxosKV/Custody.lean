import OmniPaxosKV.ReleaseOrder

-- Where the buffers and the waiter of one replica keep each inserted request,
-- and why the clock has at most one registration to settle.
namespace OmniPaxosKV.Custody
open Machine ReleaseOrder

section Keeping
variable {R : Type} [Request R]

-- The request in the waiter's hands and the sender it took with it.
def held : Waiter R → Option (Option Channel × R)
  | .idle => none
  | .popped sender req => some (sender,req)
  | .waiting sender req _ => some (sender,req)

inductive Place where
  | early | late | waiter | released

def At (q : Queue R) (x : R) : Place → Prop
  | .early => x ∈ q.buffers.early
  | .late => ∃ key, q.buffers.late key = some x
  | .waiter => ∃ sender, held q.waiter = some (sender,x)
  | .released => ∃ tx, (tx,x) ∈ q.released

-- A request is given another deadline once, on the way to the early heap.
def Redated (r x : R) : Prop := x = r ∨ ∃ deadline, x = Request.setDeadline r deadline

def inserted (actions : List (Queue.Act R)) : List R :=
  actions.filterMap fun
    | .insert r _ => some r
    | _ => none

structure Kept (requests : List R) (q : Queue R) : Prop where
  one : ∀ r ∈ requests, ∃ place x, At q x place ∧ Redated r x ∧
    ∀ place' y, At q y place' → Request.getId y = Request.getId r → place' = place ∧ y = x
  origin : ∀ place x, At q x place → ∃ r ∈ requests, Redated r x
  early : (q.buffers.early.map Request.getId).Nodup
  late : ∀ key x, q.buffers.late key = some x → Request.getId x = key
  notifiers : ∀ key, (q.buffers.notifiers key).isSome = true ↔
    ∃ x, (At q x .early ∨ At q x .late) ∧ Request.getId x = key
  sender : ∀ sender x, held q.waiter = some (sender,x) → sender.isSome = true
  notified : ∀ sender x notifier, q.waiter = .waiting sender x notifier → notifier ∉ q.dropped
  released : (q.released.map fun pair => Request.getId pair.2).Nodup

-- The numbers of the requests outside the late map, each as often as it occurs.
def numbers (q : Queue R) : List Nat :=
  q.buffers.early.map Request.getId++(held q.waiter).toList.map (fun pair => Request.getId pair.2)++
  q.released.map (fun pair => Request.getId pair.2)

def copies (q : Queue R) (key : Nat) : Nat := (numbers q).count key+(q.buffers.late key).toList.length

-- A clock with nothing left to notify.
def Settled (c : ClockState) : Prop := c.deadlines = [] ∧ c.database = .empty

-- A clock with one registration.
def Awaits (c : ClockState) (deadline : SystemTime) (tx : Channel) : Prop :=
  c.deadlines = [deadline] ∧ c.database = KeyMap.empty.insert deadline tx

theorem remove_insert (deadline : SystemTime) (tx : Channel) :
    ((KeyMap.empty : KeyMap SystemTime Channel).insert deadline tx).remove deadline = .empty := by
  funext other
  simp only [KeyMap.remove_apply,KeyMap.insert_apply,KeyMap.empty_apply]
  split <;> rfl

theorem processDeadlines_settled (settled : Settled c) (fuel : Nat) : c.processDeadlines fuel = (c,[]) := by
  cases fuel with
  | zero => rfl
  | succ fuel => simp [ClockState.processDeadlines,settled.1,BinaryHeap.pop]

theorem processDeadlines_awaits (awaits : Awaits c deadline tx) :
    c.processDeadlines 1 = (c,[]) ∨ Settled (c.processDeadlines 1).1 ∧ (c.processDeadlines 1).2 = [tx] := by
  obtain ⟨deadlines,database⟩ := awaits
  by_cases past : deadline < c.logicalTime
  · refine .inr ⟨⟨?_,?_⟩,?_⟩
    · simp [ClockState.processDeadlines,deadlines,BinaryHeap.pop,past]
    · simp [ClockState.processDeadlines,deadlines,BinaryHeap.pop,past,database,remove_insert]
    · simp [ClockState.processDeadlines,deadlines,BinaryHeap.pop,past,database]
  · exact .inl (by simp [ClockState.processDeadlines,deadlines,BinaryHeap.pop,past])

-- A tick passes the deadlines it processed on, and counts.
theorem tick_parts (c : ClockState) (fast : Bool) : ∃ counter logicalTime,
    let processed := ({c with counter:=counter,logicalTime:=logicalTime}).processDeadlines c.deadlines.length
    (c.tick fast).2.1 = processed.2 ∧ (c.tick fast).1.deadlines = processed.1.deadlines ∧
    (c.tick fast).1.database = processed.1.database := by
  refine ⟨c.counter+1,c.logicalTime+if fast then Duration.fromMillis 1+c.drift else Duration.fromMillis 1-c.drift,?_⟩
  dsimp only [ClockState.tick]
  generalize (if fast then Duration.fromMillis 1+c.drift else Duration.fromMillis 1-c.drift) = elapsed
  split <;> exact ⟨rfl,rfl,rfl⟩

theorem tick_settled (fast : Bool) (settled : Settled c) : Settled (c.tick fast).1 ∧ (c.tick fast).2.1 = [] := by
  obtain ⟨counter,logicalTime,fired,deadlines,database⟩ := tick_parts c fast
  have same := processDeadlines_settled (c := {c with counter:=counter,logicalTime:=logicalTime}) settled c.deadlines.length
  rw [same] at fired deadlines database
  exact ⟨⟨deadlines.trans settled.1,database.trans settled.2⟩,fired⟩

theorem tick_awaits (fast : Bool) (awaits : Awaits c deadline tx) :
    Awaits (c.tick fast).1 deadline tx ∧ (c.tick fast).2.1 = [] ∨
    Settled (c.tick fast).1 ∧ (c.tick fast).2.1 = [tx] := by
  obtain ⟨counter,logicalTime,fired,deadlines,database⟩ := tick_parts c fast
  have one : c.deadlines.length = 1 := by simp [awaits.1]
  rw [one] at fired deadlines database
  rcases processDeadlines_awaits (c := {c with counter:=counter,logicalTime:=logicalTime}) awaits with kept | ⟨settled,notified⟩
  · rw [kept] at fired deadlines database
    exact .inl ⟨⟨deadlines.trans awaits.1,database.trans awaits.2⟩,fired⟩
  · exact .inr ⟨⟨deadlines.trans settled.1,database.trans settled.2⟩,fired.trans notified⟩

-- A deadline that the clock shows is past by the next tick.
theorem tick_due {c : ClockState} (awaits : Awaits c deadline tx) (due : deadline ≤ c.logicalTime) :
    (c.tick true).2.1 = [tx] := by
  obtain ⟨deadlines,database⟩ := awaits
  have past : deadline < c.logicalTime+(Duration.fromMillis 1+c.drift) := by
    refine Nat.lt_of_le_of_lt due (Nat.lt_add_of_pos_right ?_)
    exact Nat.add_pos_left (by decide) _
  dsimp only [ClockState.tick]
  simp [ClockState.processDeadlines,deadlines,BinaryHeap.pop,past,database]
  split <;> rfl

-- The clock knows the registration the waiter is blocked on, and no other.
structure Registered (q : Queue R) : Prop where
  fired : ∀ ch ∈ q.fired, ch < q.nextChannel
  clock : (Settled q.clock ∧ ∀ sender req ch, q.waiter = .waiting sender req ch → ch ∈ q.fired) ∨
    ∃ sender req ch, q.waiter = .waiting sender req ch ∧ ch ∉ q.fired ∧ ch < q.nextChannel ∧
      Awaits q.clock (Request.getDeadline req) ch

theorem registered_new (clock : ClockState) (settled : Settled clock) : Registered ({clock:=clock} : Queue R) := by
  refine ⟨?_,.inl ⟨settled,?_⟩⟩
  · intro ch member; cases member
  · intro sender req ch waits; cases waits

theorem Registered.frame {q next : Queue R} (registered : Registered q) (clock : next.clock.deadlines = q.clock.deadlines)
    (database : next.clock.database = q.clock.database) (waiter : next.waiter = q.waiter) (fired : next.fired = q.fired)
    (channel : q.nextChannel ≤ next.nextChannel) : Registered next := by
  refine ⟨?_,?_⟩
  · intro ch member
    rw [fired] at member
    exact Nat.lt_of_lt_of_le (registered.fired ch member) channel
  · simp only [Settled,Awaits,clock,database,waiter,fired]
    rcases registered.clock with settled | ⟨sender,req,ch,waits,silent,bound,awaits⟩
    · exact .inl settled
    · exact .inr ⟨sender,req,ch,waits,silent,Nat.lt_of_lt_of_le bound channel,awaits⟩

-- A waiter that is not blocked leaves the clock settled.
theorem Registered.settled {q : Queue R} (registered : Registered q)
    (free : ∀ sender req ch, q.waiter = .waiting sender req ch → ch ∈ q.fired) : Settled q.clock := by
  rcases registered.clock with ⟨settled,_⟩ | ⟨sender,req,ch,waits,silent,_⟩
  · exact settled
  · exact absurd (free sender req ch waits) silent

theorem registered_tick {q : Queue R} (registered : Registered q) (fast : Bool) : Registered (q.tick fast).1 := by
  have later : ∀ ch ∈ q.fired, ch ∈ (q.tick fast).1.fired := fun ch member => List.mem_append_left _ member
  rcases registered.clock with ⟨settled,known⟩ | ⟨sender,req,ch,waits,silent,bound,awaits⟩
  · obtain ⟨still,nothing⟩ := tick_settled fast settled
    have fired : (q.tick fast).1.fired = q.fired := by simp [Queue.tick,nothing]
    refine ⟨by rw [fired]; exact registered.fired,.inl ⟨still,?_⟩⟩
    intro sender req ch waits
    exact later ch (known sender req ch waits)
  · rcases tick_awaits fast awaits with ⟨still,nothing⟩ | ⟨settled,notified⟩
    · have fired : (q.tick fast).1.fired = q.fired := by simp [Queue.tick,nothing]
      exact ⟨by rw [fired]; exact registered.fired,.inr ⟨sender,req,ch,waits,by rw [fired]; exact silent,bound,still⟩⟩
    · have fired : (q.tick fast).1.fired = q.fired++[ch] := by simp [Queue.tick,notified]
      refine ⟨?_,.inl ⟨settled,?_⟩⟩
      · intro other member
        rw [fired] at member
        rcases List.mem_append.mp member with old | new
        · exact registered.fired other old
        · cases List.mem_singleton.mp new
          exact bound
      · intro sender' req' other waits'
        cases waits.symm.trans waits'
        simp [fired]

-- The waiter registers with a settled clock, so nothing is overwritten.
theorem registered_waits {q next : Queue R} (registered : Registered q) (lossless : q.dropped = [])
    (waits : Waits q next) : Registered next := by
  cases waits with
  | pop idle popped =>
    have settled := registered.settled (fun _ _ _ waits => by simp [idle] at waits)
    exact ⟨registered.fired,.inl ⟨settled,by simp⟩⟩
  | register taken added =>
    have settled := registered.settled (fun _ _ _ waits => by simp [taken] at waits)
    simp only [ClockState.addDeadline,Prod.mk.injEq] at added
    obtain ⟨rfl,rfl⟩ := added
    refine ⟨fun ch member => Nat.lt_succ_of_lt (registered.fired ch member),.inr ⟨_,_,_,rfl,?_,?_,?_,?_⟩⟩
    · intro member
      exact Nat.lt_irrefl _ (registered.fired _ member)
    · exact Nat.lt_succ_self _
    · simp [settled.1,BinaryHeap.push,BinaryHeap.siftUp]
    · simp [settled.2]
  | release taken notified | unsynchronized taken notified =>
    have settled := registered.settled (fun _ _ _ waits => by cases taken.symm.trans waits; exact notified)
    exact ⟨registered.fired,.inl ⟨settled,by simp⟩⟩
  | lose taken gone => simp [lossless] at gone

-- What is stored when requests with these numbers have been inserted.
structure Stocked (requests : List R) (q : Queue R) : Prop where
  once : ∀ key, copies q key = (requests.map Request.getId).count key
  filed : Filed q
  parked : ∀ key x, q.buffers.late key = some x → x ∈ requests
  origin : ∀ place x, At q x place → ∃ r ∈ requests, Redated r x
  notifiers : ∀ key, (q.buffers.notifiers key).isSome = true ↔
    key ∈ q.buffers.early.map Request.getId ∨ (q.buffers.late key).isSome = true
  sender : ∀ sender x, held q.waiter = some (sender,x) → sender.isSome = true
  lossless : q.dropped = []

theorem stocked_new (clock : ClockState) : Stocked [] ({clock:=clock} : Queue R) := by
  refine ⟨?_,?_,?_,?_,?_,?_,rfl⟩
  · intro key; rfl
  · intro key x found; cases found
  · intro key x found; cases found
  · intro place x there
    cases place <;> simp [At,held,KeyMap.empty] at there
  · intro key; simp
  · intro sender x taken; cases taken

theorem count_push (key : Nat) (b : Buffers R) (r : R) : ((b.push r).early.map Request.getId).count key =
    (b.early.map Request.getId).count key+if Request.getId r = key then 1 else 0 := by
  have perm := ((BinaryHeap.push_perm storedRequestLe b.early r).map Request.getId).count_eq key
  simpa [Buffers.push,List.count_cons] using perm

theorem copies_push (key : Nat) (q : Queue R) (b : Buffers R) (r : R) (early : b.early = q.buffers.early) :
    copies {q with buffers:=b.push r} key = (numbers q).count key+(if Request.getId r = key then 1 else 0)+
      (b.late key).toList.length := by
  have pushed := count_push key b r
  have late : (b.push r).late = b.late := rfl
  simp only [copies,numbers,List.count_append,pushed,late,early]
  omega

theorem mem_push_numbers (b : Buffers R) (r : R) : key ∈ (b.push r).early.map Request.getId ↔
    key = Request.getId r ∨ key ∈ b.early.map Request.getId := by
  simp only [List.mem_map,mem_push]
  constructor
  · rintro ⟨x,rfl | old,rfl⟩
    · exact .inl rfl
    · exact .inr ⟨x,old,rfl⟩
  · rintro (rfl | ⟨x,old,rfl⟩)
    · exact ⟨r,.inl rfl,rfl⟩
    · exact ⟨x,.inr old,rfl⟩

-- A number that was never inserted is in no container.
theorem Stocked.absent {q : Queue R} (stocked : Stocked requests q) (fresh : key ∉ requests.map Request.getId) :
    q.buffers.late key = none ∧ q.buffers.notifiers key = none := by
  have none := stocked.once key
  rw [List.count_eq_zero.mpr fresh] at none
  simp only [copies,numbers,List.count_append,Nat.add_eq_zero_iff,List.count_eq_zero,List.length_eq_zero_iff,
    Option.toList_eq_nil_iff] at none
  obtain ⟨⟨⟨early,_⟩,_⟩,late⟩ := none
  refine ⟨late,Option.not_isSome_iff_eq_none.mp ?_⟩
  intro present
  rcases (stocked.notifiers key).mp present with member | parked
  · exact early member
  · simp [late] at parked

-- The buffers once a sender is filed under a request's number.
def filing (q : Queue R) (r : R) : Buffers R :=
  {q.buffers with notifiers:=q.buffers.notifiers.insert (Request.getId r) q.nextChannel}

-- An insert puts its request into the early heap, perhaps redated, or parks it.
theorem insert_places [LawfulRequest R] (q : Queue R) (r : R) (imLeader : Bool) :
    (∃ x, Redated r x ∧ Request.getId x = Request.getId r ∧ (q.insert r imLeader).1.buffers = (filing q r).push x) ∨
    (q.insert r imLeader).1.buffers = {filing q r with late:=q.buffers.late.insert (Request.getId r) r} := by
  have parts := insert_buffers q r imLeader
  dsimp only at parts
  split at parts
  · exact .inl ⟨r,.inl rfl,rfl,parts⟩
  · split at parts
    · exact .inl ⟨_,.inr ⟨_,rfl⟩,LawfulRequest.getId_setDeadline ..,parts⟩
    · exact .inr parts

theorem copies_insert [LawfulRequest R] {q : Queue R} (r : R) (imLeader : Bool)
    (absent : q.buffers.late (Request.getId r) = none) :
    copies (q.insert r imLeader).1 key = copies q key+if Request.getId r = key then 1 else 0 := by
  rcases insert_places q r imLeader with ⟨x,_,same,pushed⟩ | parked
  · have both := copies_push key q (filing q r) x rfl
    rw [←pushed,same] at both
    exact both.trans (Nat.add_right_comm _ _ _)
  · have numbered : numbers (q.insert r imLeader).1 = numbers q := by
      simp only [numbers,parked]
      rfl
    simp only [copies,numbered,parked,KeyMap.insert_apply]
    by_cases own : key = Request.getId r
    · subst own
      simp [absent]
    · simp [own,Ne.symm own]

-- Everything stays where it was but for the one request that arrives.
theorem insert_at {q : Queue R} (there : At (q.insert r imLeader).1 x place) : At q x place ∨ Redated r x := by
  cases place with
  | early =>
    rcases insert_early there with own | redated | old
    · exact .inr (.inl own)
    · exact .inr (.inr redated)
    · exact .inl old
  | late =>
    obtain ⟨key,found⟩ := there
    rcases insert_late found with ⟨own,_⟩ | old
    · exact .inr (.inl own)
    · exact .inl ⟨key,old⟩
  | waiter | released => exact .inl there

theorem free_at {q : Queue R} (there : At (q.freeFromLate key newDeadline) x place) :
    At q x place ∨ ∃ r, q.buffers.late key = some r ∧ Redated r x := by
  cases place with
  | early =>
    rcases free_early there with ⟨r,parked,rfl⟩ | old
    · exact .inr ⟨r,parked,.inr ⟨_,rfl⟩⟩
    · exact .inl old
  | late =>
    obtain ⟨other,found⟩ := there
    exact .inl ⟨other,free_late found⟩
  | waiter | released => exact .inl there

-- The waiter hands requests on and never makes one.
theorem waits_at {q next : Queue R} (waits : Waits q next) (there : At next x place) : ∃ place', At q x place' := by
  cases waits with
  | pop idle popped =>
    obtain ⟨taken,_,same⟩ := pop_parts popped
    have perm := BinaryHeap.pop_perm taken
    cases place with
    | early => exact ⟨.early,perm.mem_iff.mpr (List.mem_cons_of_mem _ there)⟩
    | late =>
      obtain ⟨key,found⟩ := there
      rw [same] at found
      exact ⟨.late,key,found⟩
    | waiter =>
      obtain ⟨sender,now⟩ := there
      cases now
      exact ⟨.early,perm.mem_iff.mpr List.mem_cons_self⟩
    | released => exact ⟨.released,there⟩
  | register taken added =>
    cases place with
    | waiter =>
      obtain ⟨sender,now⟩ := there
      cases now
      exact ⟨.waiter,_,by rw [taken]; rfl⟩
    | early => exact ⟨.early,there⟩
    | late => exact ⟨.late,there⟩
    | released => exact ⟨.released,there⟩
  | release taken notified =>
    cases place with
    | waiter => obtain ⟨sender,now⟩ := there; cases now
    | released =>
      obtain ⟨ch,member⟩ := there
      rcases List.mem_append.mp member with old | new
      · exact ⟨.released,ch,old⟩
      · cases List.mem_singleton.mp new
        exact ⟨.waiter,_,by rw [taken]; rfl⟩
    | early => exact ⟨.early,there⟩
    | late => exact ⟨.late,there⟩
  | unsynchronized taken _ | lose taken _ =>
    cases place with
    | waiter => obtain ⟨sender,now⟩ := there; cases now
    | early => exact ⟨.early,there⟩
    | late => exact ⟨.late,there⟩
    | released => exact ⟨.released,there⟩

theorem stocked_insert [LawfulRequest R] {q : Queue R} (stocked : Stocked requests q) (r : R) (imLeader : Bool)
    (fresh : Request.getId r ∉ requests.map Request.getId) : Stocked (requests++[r]) (q.insert r imLeader).1 := by
  obtain ⟨absent,unknown⟩ := stocked.absent fresh
  refine ⟨?_,filed_step stocked.filed (show q.step (.insert r imLeader) = _ from rfl),?_,?_,?_,stocked.sender,?_⟩
  · intro key
    rw [copies_insert r imLeader absent,stocked.once key]
    simp [List.count_singleton]
  · intro key x found
    rcases insert_late found with ⟨rfl,_⟩ | old
    · simp
    · exact List.mem_append_left _ (stocked.parked key x old)
  · intro place x there
    rcases insert_at there with old | redated
    · obtain ⟨r',member,redated⟩ := stocked.origin place x old
      exact ⟨r',List.mem_append_left _ member,redated⟩
    · exact ⟨r,by simp,redated⟩
  · intro key
    have known := stocked.notifiers key
    rcases insert_places q r imLeader with ⟨y,_,same,pushed⟩ | parked
    · rw [pushed,mem_push_numbers,same]
      simp only [filing,Buffers.push,KeyMap.insert_apply]
      split <;> simp_all
    · simp only [parked,filing,KeyMap.insert_apply]
      split <;> simp_all
  · simp [Queue.insert,stocked.lossless,unknown]

theorem stocked_free [LawfulRequest R] {q : Queue R} (stocked : Stocked requests q) (id : Nat) (newDeadline : SystemTime) :
    Stocked requests (q.freeFromLate id newDeadline) := by
  cases found : q.buffers.late id with
  | none =>
    rw [Queue.freeFromLate_none found]
    exact stocked
  | some r =>
    have number := stocked.filed id r found
    refine ⟨?_,filed_step stocked.filed (show q.step (.freeFromLate id newDeadline) = _ from rfl),?_,?_,?_,
      stocked.sender,stocked.lossless⟩
    · intro key
      have pushed := copies_push key q {q.buffers with late:=q.buffers.late.remove id}
        (Request.setDeadline r newDeadline) rfl
      rw [←stocked.once key,Queue.freeFromLate_some found]
      apply pushed.trans
      simp only [LawfulRequest.getId_setDeadline,number,copies,KeyMap.remove_apply]
      by_cases own : key = id
      · subst own
        simp [found]
      · simp [own,Ne.symm own]
    · intro key x there
      exact stocked.parked key x (free_late there)
    · intro place x there
      rcases free_at there with old | ⟨r',parked,redated⟩
      · exact stocked.origin place x old
      · exact ⟨r',stocked.parked id r' parked,redated⟩
    · intro key
      have known := stocked.notifiers key
      rw [Queue.freeFromLate_some found,mem_push_numbers,LawfulRequest.getId_setDeadline,number]
      simp only [Buffers.push,KeyMap.remove_apply]
      split <;> simp_all

-- A popped request was there once, so its number leaves the buffers altogether.
theorem Stocked.single {q : Queue R} (stocked : Stocked requests q) (distinct : (requests.map Request.getId).Nodup)
    (perm : q.buffers.early.Perm (req::rest)) :
    Request.getId req ∉ rest.map Request.getId ∧ q.buffers.late (Request.getId req) = none := by
  have most := List.nodup_iff_count_le_one.mp distinct (Request.getId req)
  have counted := (perm.map Request.getId).count_eq (Request.getId req)
  rw [List.map_cons,List.count_cons_self] at counted
  rw [←stocked.once,copies,numbers,List.count_append,List.count_append,counted] at most
  refine ⟨List.count_eq_zero.mp (by omega),?_⟩
  cases found : q.buffers.late (Request.getId req) with
  | none => rfl
  | some x =>
    simp only [found,Option.toList_some,List.length_singleton] at most
    omega

theorem stocked_pop {q : Queue R} (stocked : Stocked requests q) (distinct : (requests.map Request.getId).Nodup)
    (idle : q.waiter = .idle) (popped : q.buffers.pop = some (req,sender,buffers)) :
    Stocked requests {q with buffers:=buffers,waiter:=.popped sender req} := by
  obtain ⟨taken,rfl,same⟩ := pop_parts popped
  have perm := BinaryHeap.pop_perm taken
  have late : buffers.late = q.buffers.late := by rw [same]
  have notifiers : buffers.notifiers = q.buffers.notifiers.remove (Request.getId req) := by rw [same]
  refine ⟨?_,?_,?_,?_,?_,?_,stocked.lossless⟩
  · intro key
    have counted := (perm.map Request.getId).count_eq key
    rw [List.map_cons,List.count_cons] at counted
    rw [←stocked.once key]
    simp only [copies,numbers,List.count_append,counted,late,idle,held]
    simp [List.count_singleton]
  · intro key x found
    rw [late] at found
    exact stocked.filed key x found
  · intro key x found
    rw [late] at found
    exact stocked.parked key x found
  · intro place x now
    obtain ⟨place',there⟩ := waits_at (.pop idle popped) now
    exact stocked.origin place' x there
  · intro key
    have moved : key ∈ q.buffers.early.map Request.getId ↔
        key = Request.getId req ∨ key ∈ buffers.early.map Request.getId := by
      rw [(perm.map Request.getId).mem_iff,List.map_cons,List.mem_cons]
    simp only [notifiers,late,KeyMap.remove_apply]
    split
    · rename_i own
      subst own
      simp [stocked.single distinct perm]
    · rename_i other
      rw [stocked.notifiers key,moved]
      simp [other]
  · intro sender x now
    cases now
    exact (stocked.notifiers _).mpr (.inl (List.mem_map_of_mem (perm.mem_iff.mpr List.mem_cons_self)))

theorem stocked_waits {q next : Queue R} (stocked : Stocked requests q) (registered : Registered q)
    (distinct : (requests.map Request.getId).Nodup) (waits : Waits q next) : Stocked requests next := by
  have origin : ∀ place x, At next x place → ∃ r ∈ requests, Redated r x := by
    intro place x now
    obtain ⟨place',there⟩ := waits_at waits now
    exact stocked.origin place' x there
  cases waits with
  | pop idle popped => exact stocked_pop stocked distinct idle popped
  | register taken added =>
    have settled := registered.settled (fun _ _ _ waits => by simp [taken] at waits)
    simp only [ClockState.addDeadline,Prod.mk.injEq] at added
    obtain ⟨rfl,rfl⟩ := added
    have same : ∀ sender req ch, held (.waiting sender req ch : Waiter R) = held (.popped sender req) := fun _ _ _ => rfl
    refine ⟨?_,stocked.filed,stocked.parked,origin,stocked.notifiers,?_,?_⟩
    · intro key
      rw [←stocked.once key]
      simp only [copies,numbers,same,taken]
    · intro sender x now
      apply stocked.sender sender x
      simpa only [same,taken] using now
    · simp [stocked.lossless,settled.2]
  | release taken notified =>
    refine ⟨?_,stocked.filed,stocked.parked,origin,stocked.notifiers,?_,stocked.lossless⟩
    · intro key
      rw [←stocked.once key]
      simp only [copies,numbers,held,taken,List.map_append,List.count_append,Option.toList_some,Option.toList_none,
        List.map_cons,List.map_nil,List.count_nil]
      omega
    · intro sender x now; cases now
  | unsynchronized taken notified =>
    have present := stocked.sender none _ (by rw [taken]; rfl)
    cases present
  | lose taken gone => simp [stocked.lossless] at gone

-- Both halves of the invariant; each needs the other at the waiter's steps.
theorem stocked_step [LawfulRequest R] {q next : Queue R} (stocked : Stocked requests q) (registered : Registered q)
    (distinct : ((requests++inserted [action]).map Request.getId).Nodup) (ran : q.step action = some next) :
    Stocked (requests++inserted [action]) next ∧ Registered next := by
  cases action with
  | insert r imLeader =>
    cases Option.some.inj ran
    have fresh : Request.getId r ∉ requests.map Request.getId := by
      simp only [inserted,List.filterMap_cons,List.filterMap_nil,List.map_append,List.map_cons,List.map_nil] at distinct
      intro member
      exact List.disjoint_of_nodup_append distinct member List.mem_cons_self
    exact ⟨stocked_insert stocked r imLeader fresh,registered.frame rfl rfl rfl rfl (Nat.le_succ _)⟩
  | freeFromLate id newDeadline =>
    cases Option.some.inj ran
    simp only [inserted,List.filterMap_cons,List.filterMap_nil,List.append_nil]
    exact ⟨stocked_free stocked id newDeadline,registered.frame rfl rfl rfl rfl (Nat.le_refl _)⟩
  | wait =>
    simp only [inserted,List.filterMap_cons,List.filterMap_nil,List.append_nil] at distinct ⊢
    have waits := wait_sound ran
    exact ⟨stocked_waits stocked registered distinct waits,registered_waits registered stocked.lossless waits⟩
  | tick fast =>
    cases Option.some.inj ran
    simp only [inserted,List.filterMap_cons,List.filterMap_nil,List.append_nil]
    exact ⟨⟨stocked.once,stocked.filed,stocked.parked,stocked.origin,stocked.notifiers,stocked.sender,stocked.lossless⟩,
      registered_tick registered fast⟩
  | resync realTime =>
    cases Option.some.inj ran
    simp only [inserted,List.filterMap_cons,List.filterMap_nil,List.append_nil]
    exact ⟨⟨stocked.once,stocked.filed,stocked.parked,stocked.origin,stocked.notifiers,stocked.sender,stocked.lossless⟩,
      registered.frame rfl rfl rfl rfl (Nat.le_refl _)⟩

omit [Request R] in
theorem inserted_append (earlier later : List (Queue.Act R)) :
    inserted (earlier++later) = inserted earlier++inserted later :=
  List.filterMap_append

theorem stocked_runs [LawfulRequest R] {initial q : Queue R} (stocked : Stocked requests initial)
    (registered : Registered initial) (path : Reaches Queue.step initial actions q)
    (distinct : ((requests++inserted actions).map Request.getId).Nodup) :
    Stocked (requests++inserted actions) q ∧ Registered q := by
  induction path with
  | nil => exact ⟨(List.append_nil requests).symm ▸ stocked,registered⟩
  | snoc earlier meets ran ih =>
    rw [inserted_append,←List.append_assoc] at distinct ⊢
    have both := ih (distinct.sublist ((List.sublist_append_left ..).map _))
    exact stocked_step both.1 both.2 distinct ran

-- All that is stored, with its place; the late map is asked for one number.
def entries (q : Queue R) (key : Nat) : List (Place × R) :=
  q.buffers.early.map (Place.early,·)++(held q.waiter).toList.map (fun pair => (Place.waiter,pair.2))++
  q.released.map (fun pair => (Place.released,pair.2))++(q.buffers.late key).toList.map (Place.late,·)

theorem mem_entries {q : Queue R} (filed : Filed q) (number : Request.getId x = key) :
    (place,x) ∈ entries q key ↔ At q x place := by
  have late : q.buffers.late key = some x ↔ At q x .late := by
    constructor
    · exact fun found => ⟨key,found⟩
    · rintro ⟨other,found⟩
      have same := filed other x found
      rwa [←number,same]
  cases place <;> simp [entries,At] at late ⊢
  exact late

theorem countP_entries {q : Queue R} (filed : Filed q) :
    (entries q key).countP (fun entry => Request.getId entry.2 = key) = copies q key := by
  have late : ((q.buffers.late key).toList.map (Place.late,·)).countP (fun entry => Request.getId entry.2 = key) =
      (q.buffers.late key).toList.length := by
    cases found : q.buffers.late key with
    | none => rfl
    | some x => simp [filed key x found]
  simp only [entries,copies,numbers,List.countP_append,late,List.count_append]
  simp only [List.count,List.countP_map]
  rfl

-- Where a number occurs once, it has one place.
theorem only_entry {q : Queue R} (filed : Filed q) (single : copies q key = 1) :
    ∃ place x, At q x place ∧ Request.getId x = key ∧
      ∀ place' y, At q y place' → Request.getId y = key → place' = place ∧ y = x := by
  rw [←countP_entries filed,List.countP_eq_length_filter,List.length_eq_one_iff] at single
  obtain ⟨⟨place,x⟩,alone⟩ := single
  have exactly : ∀ place' y, Request.getId y = key → (At q y place' ↔ place' = place ∧ y = x) := by
    intro place' y number
    have member : (place',y) ∈ (entries q key).filter (fun entry => Request.getId entry.2 = key) ↔ At q y place' := by
      simp [mem_entries filed number,number]
    rw [←member,alone,List.mem_singleton,Prod.mk.injEq]
  have first : (place,x) ∈ (entries q key).filter (fun entry => Request.getId entry.2 = key) := by
    rw [alone]; exact List.mem_singleton_self _
  have number : Request.getId x = key := by simpa using (List.mem_filter.mp first).2
  exact ⟨place,x,(exactly place x number).mpr ⟨rfl,rfl⟩,number,fun place' y there same => (exactly place' y same).mp there⟩

theorem Redated.getId_eq [LawfulRequest R] {r x : R} (redated : Redated r x) : Request.getId x = Request.getId r := by
  rcases redated with rfl | ⟨deadline,rfl⟩
  · rfl
  · exact LawfulRequest.getId_setDeadline ..

theorem Stocked.kept [LawfulRequest R] {q : Queue R} (stocked : Stocked requests q)
    (distinct : (requests.map Request.getId).Nodup) : Kept requests q := by
  have most : ∀ key, copies q key ≤ 1 := by
    intro key
    rw [stocked.once]
    exact List.nodup_iff_count_le_one.mp distinct key
  refine ⟨?_,stocked.origin,?_,stocked.filed,?_,stocked.sender,?_,?_⟩
  · intro r member
    have single : copies q (Request.getId r) = 1 := by
      rw [stocked.once]
      exact List.count_eq_one_of_mem distinct (List.mem_map_of_mem member)
    obtain ⟨place,x,there,number,alone⟩ := only_entry stocked.filed single
    obtain ⟨r',member',redated⟩ := stocked.origin place x there
    have same : r' = r := List.inj_on_of_nodup_map distinct member' member (redated.getId_eq.symm.trans number)
    subst same
    exact ⟨place,x,there,redated,alone⟩
  · refine List.nodup_iff_count_le_one.mpr fun key => ?_
    have bound := most key
    simp only [copies,numbers,List.count_append] at bound
    omega
  · intro key
    rw [stocked.notifiers key,List.mem_map]
    constructor
    · rintro (⟨x,member,number⟩ | parked)
      · exact ⟨x,.inl member,number⟩
      · obtain ⟨x,found⟩ := Option.isSome_iff_exists.mp parked
        exact ⟨x,.inr ⟨key,found⟩,stocked.filed key x found⟩
    · rintro ⟨x,member | ⟨other,found⟩,number⟩
      · exact .inl ⟨x,member,number⟩
      · have same := stocked.filed other x found
        rw [←number,same,found]
        exact .inr rfl
  · intro sender x notifier waits
    simp [stocked.lossless]
  · refine List.nodup_iff_count_le_one.mpr fun key => ?_
    have bound := most key
    simp only [copies,numbers,List.count_append] at bound
    omega

end Keeping

-- Nothing is lost and nothing is doubled, whatever the schedule.
theorem requests_kept [Request R] [LawfulRequest R] (master : NodeId) (drift uncertainty : Duration) (syncFreq : Nat)
    (now : SystemTime) (actions : List (Queue.Act R)) (q : Queue R)
    (path : Reaches Queue.step {clock:=.new master drift uncertainty syncFreq now} actions q)
    (distinct : ((inserted actions).map Request.getId).Nodup) : Kept (inserted actions) q :=
  (stocked_runs (stocked_new _) (registered_new _ ⟨rfl,rfl⟩) path distinct).1.kept distinct

-- Two requests of one deadline, one after the other through the clock, and a third that is late.
def threeRequests : List (Queue.Act Command) :=
  [Queue.Act.insert (sample 0 1005) false,.insert (sample 1 1005) false,.wait,.wait]++
  List.replicate 10 (Queue.Act.tick true)++[Queue.Act.wait,.wait,.insert (sample 2 1004) false,.wait]

theorem requests_kept_level : ∃ q : Queue Command,
    Reaches Queue.step {clock:=.new 2 10000 10000 100 (Duration.fromMillis 1000)} threeRequests q ∧
    Kept (inserted threeRequests) q ∧ q.released.length = 1 ∧ (held q.waiter).isSome = true ∧
    (q.buffers.late 2).isSome = true := by
  obtain ⟨q,path,placed⟩ := run_reaches Queue.step (fun _ _ => True)
    (fun q => q.released.length = 1 ∧ (held q.waiter).isSome = true ∧ (q.buffers.late 2).isSome = true)
    ({clock:=.new 2 10000 10000 100 (Duration.fromMillis 1000)} : Queue Command) threeRequests (by decide +kernel)
  exact ⟨q,path,requests_kept _ _ _ _ _ _ _ path (by decide),placed⟩

end OmniPaxosKV.Custody

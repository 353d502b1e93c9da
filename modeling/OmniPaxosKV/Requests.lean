import OmniPaxosKV.History

-- Every request a server holds is one of its proposals up to the deadline, and
-- the channel on which a proposal waits carries that proposal and no other.
namespace OmniPaxosKV.Requests
open Machine Transitions History

section Queue
variable {R : Type} [Request R]

-- `owner` says for which request's number a channel was made.
structure Queued (ok : R → Prop) (owner : Channel → Nat) (q : Queue R) : Prop where
  early : ∀ r ∈ q.buffers.early, ok r
  late : ∀ key r, q.buffers.late key = some r → ok r ∧ Request.getId r = key
  notifiers : ∀ key ch, q.buffers.notifiers key = some ch → ch < q.nextChannel ∧ owner ch = key
  waiter : ∀ sender r, q.waiter = .popped sender r ∨ (∃ notifier, q.waiter = .waiting sender r notifier) →
    ok r ∧ ∀ ch, sender = some ch → ch < q.nextChannel ∧ owner ch = Request.getId r
  released : ∀ pair ∈ q.released, ok pair.2 ∧ pair.1 < q.nextChannel ∧ owner pair.1 = Request.getId pair.2

theorem queued_new (ok : R → Prop) (owner : Channel → Nat) (clock : ClockState) :
    Queued ok owner ({clock:=clock} : Queue R) := by
  refine ⟨?_,?_,?_,?_,?_⟩
  · intro r member; cases member
  · intro key r found; cases found
  · intro key ch found; cases found
  · intro sender r held
    rcases held with held | ⟨notifier,held⟩ <;> cases held
  · intro pair member; cases member

theorem Queued.congr {q next : Queue R} (queued : Queued ok owner q) (buffers : next.buffers = q.buffers)
    (waiter : next.waiter = q.waiter) (released : next.released = q.released) (channel : next.nextChannel = q.nextChannel) :
    Queued ok owner next := by
  obtain ⟨one,two,three,four,five⟩ := queued
  constructor <;> simp only [buffers,waiter,released,channel] <;> assumption

theorem Queued.weaken {ok ok' : R → Prop} {q : Queue R} (queued : Queued ok owner q) (implied : ∀ r, ok r → ok' r) :
    Queued ok' owner q := by
  refine ⟨fun r member => implied r (queued.early r member),?_,queued.notifiers,?_,?_⟩
  · intro key r found
    obtain ⟨good,same⟩ := queued.late key r found
    exact ⟨implied r good,same⟩
  · intro sender r held
    obtain ⟨good,channel⟩ := queued.waiter sender r held
    exact ⟨implied r good,channel⟩
  · intro pair member
    obtain ⟨good,rest⟩ := queued.released pair member
    exact ⟨implied _ good,rest⟩

theorem nextChannel_waits {q next : Queue R} (waits : ReleaseOrder.Waits q next) : q.nextChannel ≤ next.nextChannel := by
  cases waits with
  | register => exact Nat.le_succ _
  | _ => exact Nat.le_refl _

theorem queued_waits {q next : Queue R} (queued : Queued ok owner q) (waits : ReleaseOrder.Waits q next) :
    Queued ok owner next := by
  cases waits with
  | pop idle popped =>
    rename_i req sender buffers
    obtain ⟨taken,rfl,same⟩ := ReleaseOrder.pop_parts popped
    have mem := fun x => (BinaryHeap.pop_perm taken).mem_iff (a := x)
    have early : ∀ r ∈ buffers.early, ok r :=
      fun r member => queued.early r ((mem r).mpr (List.mem_cons_of_mem _ member))
    refine ⟨early,?_,?_,?_,queued.released⟩
    · intro key r found
      rw [same] at found
      exact queued.late key r found
    · intro key ch found
      rw [same] at found
      simp only [KeyMap.remove_apply] at found
      split at found
      · cases found
      · exact queued.notifiers key ch found
    · intro sender r held
      rcases held with held | ⟨notifier,held⟩
      · cases held
        exact ⟨queued.early _ ((mem _).mpr List.mem_cons_self),fun ch found => queued.notifiers _ ch found⟩
      · cases held
  | register held added =>
    have later : ∀ {ch}, ch < q.nextChannel → ch < q.nextChannel+1 := fun less => Nat.lt_succ_of_lt less
    refine ⟨queued.early,queued.late,?_,?_,?_⟩
    · intro key ch found
      obtain ⟨bound,own⟩ := queued.notifiers key ch found
      exact ⟨later bound,own⟩
    · intro sender r now
      rcases now with now | ⟨notifier,now⟩
      · cases now
      · cases now
        obtain ⟨good,channel⟩ := queued.waiter _ _ (.inl held)
        refine ⟨good,?_⟩
        intro ch same
        obtain ⟨bound,own⟩ := channel ch same
        exact ⟨later bound,own⟩
    · intro pair member
      obtain ⟨good,bound,own⟩ := queued.released pair member
      exact ⟨good,later bound,own⟩
  | release held notified =>
    obtain ⟨good,channel⟩ := queued.waiter _ _ (.inr ⟨_,held⟩)
    refine ⟨queued.early,queued.late,queued.notifiers,?_,?_⟩
    · intro sender r now
      exact absurd now (ReleaseOrder.idle_holds_none rfl)
    · intro pair member
      rcases List.mem_append.mp member with old | new
      · exact queued.released pair old
      · cases List.mem_singleton.mp new
        exact ⟨good,channel _ rfl⟩
  | unsynchronized held notified =>
    refine ⟨queued.early,queued.late,queued.notifiers,?_,queued.released⟩
    intro sender r now
    exact absurd now (ReleaseOrder.idle_holds_none rfl)
  | lose held gone =>
    refine ⟨queued.early,queued.late,queued.notifiers,?_,queued.released⟩
    intro sender r now
    exact absurd now (ReleaseOrder.idle_holds_none rfl)

theorem queued_free {q : Queue R} (queued : Queued ok owner q) (dated : ∀ r d, ok r → ok (Request.setDeadline r d))
    (key : Nat) (newDeadline : SystemTime) : Queued ok owner (q.freeFromLate key newDeadline) := by
  refine ⟨?_,?_,?_,queued.waiter,queued.released⟩
  · intro x member
    rcases ReleaseOrder.free_early member with ⟨r,parked,rfl⟩ | old
    · exact dated r _ (queued.late key r parked).1
    · exact queued.early x old
  · intro key' x found
    exact queued.late key' x (ReleaseOrder.free_late found)
  · intro key' ch found
    rw [Queue.freeFromLate_notifiers] at found
    exact queued.notifiers key' ch found

theorem queued_insert {q : Queue R} (queued : Queued ok owner q) (dated : ∀ r d, ok r → ok (Request.setDeadline r d))
    (r : R) (good : ok r) (imLeader : Bool) :
    Queued ok (Function.update owner q.nextChannel (Request.getId r)) (q.insert r imLeader).1 := by
  have older : ∀ {ch key}, ch < q.nextChannel ∧ owner ch = key →
      ch < q.nextChannel+1 ∧ Function.update owner q.nextChannel (Request.getId r) ch = key := by
    intro ch key held
    obtain ⟨bound,own⟩ := held
    exact ⟨Nat.lt_succ_of_lt bound,(Function.update_of_ne (Nat.ne_of_lt bound) ..).trans own⟩
  refine ⟨?_,?_,?_,?_,?_⟩
  · intro x member
    rcases ReleaseOrder.insert_early member with rfl | ⟨deadline,rfl⟩ | old
    · exact good
    · exact dated r _ good
    · exact queued.early x old
  · intro key x found
    rcases ReleaseOrder.insert_late found with ⟨rfl,same⟩ | old
    · exact ⟨good,same⟩
    · exact queued.late key x old
  · intro key ch found
    rw [ReleaseOrder.insert_notifiers,KeyMap.insert_apply] at found
    split at found
    · cases found
      exact ⟨Nat.lt_succ_self _,(Function.update_self ..).trans (Eq.symm ‹_›)⟩
    · exact older (queued.notifiers key ch found)
  · intro sender x held
    obtain ⟨fine,channel⟩ := queued.waiter sender x held
    exact ⟨fine,fun ch same => older (channel ch same)⟩
  · intro pair member
    obtain ⟨fine,channel⟩ := queued.released pair member
    exact ⟨fine,older channel⟩

end Queue

-- The proposal under a request's number, whose deadline alone may differ.
def Original (proposed : List Proposal) (r : Command) : Prop :=
  ∃ p deadline, proposed[r.privateId]? = some p ∧ r = Request.setDeadline p.command deadline

-- What was answered to the proposal with this number.
def Answered (proposed : List Proposal) (number : Nat) (speculation : Speculation) : Prop :=
  ∃ p, proposed[number]? = some p ∧ p.speculation = speculation

def TaskOwned (s : Server) (owner : Channel → Nat) : Task Command → Prop
  | .insert entry _ speculation => Original s.proposed entry ∧ Answered s.proposed entry.privateId speculation
  | .announce entryId _ notifier speculation =>
    notifier < s.seqPaxos.queue.nextChannel ∧ owner notifier = entryId ∧ Answered s.proposed entryId speculation
  | .awaitRelease entryId notifier speculation =>
    notifier < s.seqPaxos.queue.nextChannel ∧ owner notifier = entryId ∧ Answered s.proposed entryId speculation
  | _ => True

structure Owned (s : Server) (owner : Channel → Nat) : Prop where
  numbered : ∀ (number : Nat) p, s.proposed[number]? = some p → p.command.privateId = number
  counter : s.privateCommandId = s.proposed.length
  queue : Queued (Original s.proposed) owner s.seqPaxos.queue
  tasks : ∀ task ∈ s.seqPaxos.tasks, TaskOwned s owner task
  acked : ∀ ack ∈ acks s, Original s.proposed ack.req ∧ Answered s.proposed ack.req.privateId ack.speculation
  announced : ∀ pair ∈ s.seqPaxos.history.announced, pair.1 < s.proposed.length
  freed : ∀ record ∈ s.seqPaxos.history.freed, Original s.proposed record.2.2

theorem original_dated (original : Original proposed r) : Original proposed (Request.setDeadline r deadline : Command) := by
  obtain ⟨p,before,found,same⟩ := original
  exact ⟨p,deadline,found,by rw [same]; rfl⟩

theorem Original.grow (original : Original proposed r) (grows : proposed <+: proposed') : Original proposed' r := by
  obtain ⟨p,deadline,found,same⟩ := original
  exact ⟨p,deadline,getElem?_grown grows found,same⟩

theorem Answered.grow (answered : Answered proposed number speculation) (grows : proposed <+: proposed') :
    Answered proposed' number speculation := by
  obtain ⟨p,found,same⟩ := answered
  exact ⟨p,getElem?_grown grows found,same⟩

theorem Answered.bound (answered : Answered proposed number speculation) : number < proposed.length := by
  obtain ⟨p,found,_⟩ := answered
  exact (List.getElem?_eq_some_iff.mp found).1

theorem background_owned (idle : background task = true) : TaskOwned s owner task := by
  cases task <;> trivial

-- Tasks keep their channel whatever else the server does.
theorem TaskOwned.frame {s next : Server} (owned : TaskOwned s owner task) (proposed : s.proposed <+: next.proposed)
    (channel : s.seqPaxos.queue.nextChannel ≤ next.seqPaxos.queue.nextChannel)
    (same : ∀ ch < s.seqPaxos.queue.nextChannel, owner' ch = owner ch) : TaskOwned next owner' task := by
  cases task with
  | insert entry imLeader speculation => exact ⟨owned.1.grow proposed,owned.2.grow proposed⟩
  | announce entryId newDeadline notifier speculation =>
    obtain ⟨bound,own,answered⟩ := owned
    exact ⟨Nat.lt_of_lt_of_le bound channel,(same notifier bound).trans own,answered.grow proposed⟩
  | awaitRelease entryId notifier speculation =>
    obtain ⟨bound,own,answered⟩ := owned
    exact ⟨Nat.lt_of_lt_of_le bound channel,(same notifier bound).trans own,answered.grow proposed⟩
  | _ => trivial

-- Steps that propose nothing and record nothing.
theorem Owned.keep {s next : Server} (owned : Owned s owner) (proposed : next.proposed = s.proposed)
    (counter : next.privateCommandId = s.privateCommandId)
    (queue : Queued (Original s.proposed) owner next.seqPaxos.queue)
    (channel : s.seqPaxos.queue.nextChannel ≤ next.seqPaxos.queue.nextChannel)
    (tasks : ∀ task ∈ next.seqPaxos.tasks, task ∈ s.seqPaxos.tasks ∨ TaskOwned next owner task)
    (history : next.seqPaxos.history = s.seqPaxos.history) : Owned next owner := by
  have whole : s.proposed <+: next.proposed := by rw [proposed]
  refine ⟨?_,?_,by rw [proposed]; exact queue,?_,?_,?_,?_⟩
  · rw [proposed]; exact owned.numbered
  · rw [proposed,counter]; exact owned.counter
  · intro task member
    rcases tasks task member with old | new
    · exact (owned.tasks task old).frame whole channel (fun _ _ => rfl)
    · exact new
  · unfold acks; rw [proposed,history]; exact owned.acked
  · rw [proposed,history]; exact owned.announced
  · rw [proposed,history]; exact owned.freed

theorem Owned.spawn {s : Server} (owned : Owned s owner) (task : Task Command) (idle : TaskOwned s owner task)
    {next : Server} (proposed : next.proposed = s.proposed) (counter : next.privateCommandId = s.privateCommandId)
    (queue : next.seqPaxos.queue = s.seqPaxos.queue) (tasks : next.seqPaxos.tasks = s.seqPaxos.tasks++[task])
    (history : next.seqPaxos.history = s.seqPaxos.history) : Owned next owner := by
  have whole : s.proposed <+: next.proposed := by rw [proposed]
  refine owned.keep proposed counter (by rw [queue]; exact owned.queue) (by rw [queue]) ?_ history
  intro t member
  rw [tasks] at member
  rcases List.mem_append.mp member with old | new
  · exact .inl old
  · cases List.mem_singleton.mp new
    exact .inr (idle.frame whole (by rw [queue]) (fun _ _ => rfl))

-- A new proposal takes the next number.
theorem owned_propose {s next : Server} (owned : Owned s owner) (p : Proposal) (imLeader : Bool)
    (number : p.command.privateId = s.privateCommandId) (proposed : next.proposed = s.proposed++[p])
    (counter : next.privateCommandId = s.privateCommandId+1) (queue : next.seqPaxos.queue = s.seqPaxos.queue)
    (tasks : next.seqPaxos.tasks = s.seqPaxos.tasks++[.insert p.command imLeader p.speculation])
    (history : next.seqPaxos.history = s.seqPaxos.history) : Owned next owner := by
  have grows : s.proposed <+: next.proposed := by rw [proposed]; exact List.prefix_append ..
  rw [owned.counter] at number
  have found : next.proposed[p.command.privateId]? = some p := by
    rw [proposed,number]
    exact List.getElem?_concat_length
  refine ⟨?_,?_,?_,?_,?_,?_,?_⟩
  · intro k q there
    rw [proposed] at there
    rcases getElem?_concat_cases there with old | ⟨last,rfl⟩
    · exact owned.numbered k q old
    · exact number.trans last.symm
  · rw [counter,proposed,owned.counter,List.length_append,List.length_singleton]
  · rw [queue]
    exact owned.queue.weaken fun r original => original.grow grows
  · intro task member
    rw [tasks] at member
    rcases List.mem_append.mp member with old | new
    · exact (owned.tasks task old).frame grows (by rw [queue]) (fun _ _ => rfl)
    · cases List.mem_singleton.mp new
      exact ⟨⟨p,p.command.deadline,found,rfl⟩,⟨p,found,rfl⟩⟩
  · intro ack member
    unfold acks at member
    rw [history] at member
    obtain ⟨original,answered⟩ := owned.acked ack member
    exact ⟨original.grow grows,answered.grow grows⟩
  · intro pair member
    rw [history] at member
    exact Nat.lt_of_lt_of_le (owned.announced pair member) grows.length_le
  · intro record member
    rw [history] at member
    exact (owned.freed record member).grow grows

-- The task of a proposal hands its request to the queue under a new channel.
theorem owned_insert {s : Server} (owned : Owned s owner) (member : .insert entry imLeader speculation ∈ s.seqPaxos.tasks)
    (after : ∀ task, task ∈ (s.seqPaxos.tasks.set place task') → task ∈ s.seqPaxos.tasks ∨ task = task')
    (next : task' = .awaitRelease entry.privateId s.seqPaxos.queue.nextChannel speculation ∨
      ∃ newDeadline, task' = .announce entry.privateId newDeadline s.seqPaxos.queue.nextChannel speculation) :
    Owned (s.withPaxos {s.seqPaxos with
      queue:=(s.seqPaxos.queue.insert entry imLeader).1,tasks:=s.seqPaxos.tasks.set place task'})
      (Function.update owner s.seqPaxos.queue.nextChannel entry.privateId) := by
  obtain ⟨original,answered⟩ := owned.tasks _ member
  have waiting : s.seqPaxos.queue.nextChannel < s.seqPaxos.queue.nextChannel+1 ∧
      Function.update owner s.seqPaxos.queue.nextChannel entry.privateId s.seqPaxos.queue.nextChannel = entry.privateId ∧
      Answered s.proposed entry.privateId speculation := ⟨Nat.lt_succ_self _,Function.update_self ..,answered⟩
  refine ⟨owned.numbered,owned.counter,?_,?_,owned.acked,owned.announced,owned.freed⟩
  · exact queued_insert owned.queue (fun r d good => original_dated good) entry original imLeader
  · intro task present
    rcases after task present with old | rfl
    · exact (owned.tasks task old).frame (List.prefix_refl _) (Nat.le_succ _)
        (fun ch bound => Function.update_of_ne (Nat.ne_of_lt bound) ..)
    · rcases next with rfl | ⟨newDeadline,rfl⟩
      · exact waiting
      · exact waiting

-- What comes through a proposal's channel is that proposal.
theorem released_number {s : Server} (owned : Owned s owner)
    (waits : TaskOwned s owner (.awaitRelease entryId notifier speculation))
    (released : s.seqPaxos.queue.released.lookup notifier = some req) :
    Original s.proposed req ∧ req.privateId = entryId := by
  obtain ⟨before,after,split,_⟩ := List.lookup_eq_some_iff.mp released
  have member : (notifier,req) ∈ s.seqPaxos.queue.released := by simp [split]
  obtain ⟨original,_,own⟩ := owned.queue.released _ member
  exact ⟨original,own.symm.trans waits.2.1⟩

theorem released_own {s : Server} (owned : Owned s owner)
    (waits : TaskOwned s owner (.awaitRelease entryId notifier speculation))
    (released : s.seqPaxos.queue.released.lookup notifier = some req) :
    Original s.proposed req ∧ Answered s.proposed req.privateId speculation := by
  obtain ⟨original,same⟩ := released_number owned waits released
  exact ⟨original,same ▸ waits.2.2⟩

theorem owned_append {s : Server} (storing : Storing hasher s.seqPaxos) (owned : Owned s owner)
    (found : s.seqPaxos.tasks[place]? = some (.awaitRelease entryId notifier speculation))
    (released : s.seqPaxos.queue.released.lookup notifier = some req) :
    Owned (s.withPaxos {(s.seqPaxos.appendReleased hasher req speculation).1 with
      tasks:=s.seqPaxos.tasks.set place (s.seqPaxos.appendReleased hasher req speculation).2}) owner := by
  have own := released_own owned (owned.tasks _ (List.mem_of_getElem? found)) released
  rw [appendReleased_eq storing]
  refine ⟨owned.numbered,owned.counter,owned.queue,?_,?_,owned.announced,owned.freed⟩
  · intro task member
    rcases List.mem_or_eq_of_mem_set member with old | rfl
    · exact owned.tasks task old
    · trivial
  · intro ack member
    change ack ∈ (s.seqPaxos.history.acked++[_]).map Prod.fst at member
    rw [List.map_append] at member
    rcases List.mem_append.mp member with old | new
    · exact owned.acked ack old
    · cases List.mem_singleton.mp new
      exact own

theorem owned_advance {s : Server} (storing : Storing hasher s.seqPaxos) (owned : Owned s owner)
    (found : s.seqPaxos.tasks[place]? = some task) (ran : Advance hasher s.seqPaxos task next task') :
    ∃ owner', Owned (s.withPaxos {next with tasks:=s.seqPaxos.tasks.set place task'}) owner' := by
  have after : ∀ t ∈ s.seqPaxos.tasks.set place task', t ∈ s.seqPaxos.tasks ∨ t = task' :=
    fun t member => List.mem_or_eq_of_mem_set member
  have before := owned.tasks task (List.mem_of_getElem? found)
  cases ran with
  | insert kept => exact ⟨_,owned_insert owned (List.mem_of_getElem? found) after (.inl rfl)⟩
  | insertLate chosen => exact ⟨_,owned_insert owned (List.mem_of_getElem? found) after (.inr ⟨_,rfl⟩)⟩
  | append released => exact ⟨owner,owned_append storing owned found released⟩
  | announce =>
    refine ⟨owner,owned.numbered,owned.counter,owned.queue,?_,owned.acked,?_,owned.freed⟩
    · intro t member
      rcases after t member with old | rfl
      · exact owned.tasks t old
      · exact before
    · intro pair member
      rcases List.mem_append.mp member with old | new
      · exact owned.announced pair old
      · cases List.mem_singleton.mp new
        exact before.2.2.bound
  | free late =>
    refine ⟨owner,owned.numbered,owned.counter,?_,?_,owned.acked,owned.announced,?_⟩
    · exact queued_free owned.queue (fun r d good => original_dated good) _ _
    · intro t member
      rcases after t member with old | rfl
      · exact owned.tasks t old
      · trivial
    · intro record member
      rcases List.mem_append.mp member with old | new
      · exact owned.freed record old
      · cases List.mem_singleton.mp new
        exact (owned.queue.late _ _ late).1
  | background first last clock extra syncs =>
    refine ⟨owner,owned.keep rfl rfl (owned.queue.congr rfl rfl rfl rfl) (Nat.le_refl _) ?_ rfl⟩
    intro t member
    rcases after t member with old | rfl
    · exact .inl old
    · exact .inr (background_owned last)
  | setDecidedIdx | freeNothing | lose | queueAck =>
    refine ⟨owner,owned.keep rfl rfl owned.queue (Nat.le_refl _) ?_ rfl⟩
    intro t member
    rcases after t member with old | rfl
    · exact .inl old
    · exact .inr trivial

theorem owned_step {s next : Server} (storing : Storing hasher s.seqPaxos) (owned : Owned s owner)
    (ran : Step hasher s action next) : ∃ owner', Owned next owner' := by
  have role : ∀ {s' : SequencePaxos Command} {omnipaxos : OmniPaxos Command}, omnipaxos.seqPaxos = s' →
      SameButRole s.seqPaxos s' → ∃ owner', Owned {s with omnipaxos:=omnipaxos} owner' := by
    intro s' omnipaxos equal same
    subst equal
    refine ⟨owner,owned.keep rfl rfl (same.queue ▸ owned.queue) (Nat.le_of_eq (congrArg Queue.nextChannel same.queue.symm))
      ?_ same.history⟩
    intro task member
    exact .inl (same.tasks ▸ member)
  cases ran with
  | speculate _ _ made => exact ⟨owner,owned_propose owned _ _ (by rw [←made]; rfl) rfl rfl rfl rfl rfl⟩
  | propose _ _ made => exact ⟨owner,owned_propose owned _ _ (by rw [←made]; rfl) rfl rfl rfl rfl rfl⟩
  | elect _ _ _ _ n => exact role rfl (sameButRole_handleLeader _ n storing.batched)
  | reconnect _ => exact role rfl (sameButRole_reconnected ..)
  | synchronize _ idle => exact ⟨owner,owned.spawn _ (background_owned idle) rfl rfl rfl rfl rfl⟩
  | confirm => exact ⟨owner,owned.spawn (.setDecidedIdx _) trivial rfl rfl rfl rfl rfl⟩
  | newDeadline => exact ⟨owner,owned.spawn (.freeFromLate _ _ _) trivial rfl rfl rfl rfl rfl⟩
  | clockTick clock fired =>
    exact ⟨owner,owned.keep rfl rfl (owned.queue.congr rfl rfl rfl rfl) (Nat.le_refl _) (fun _ => .inl) rfl⟩
  | clockSync clock fired =>
    refine ⟨owner,owned.keep rfl rfl (owned.queue.congr rfl rfl rfl rfl) (Nat.le_refl _) ?_ rfl⟩
    intro task member
    rcases List.mem_append.mp member with old | new
    · exact .inl old
    · cases List.mem_singleton.mp new
      exact .inr trivial
  | wait waits =>
    exact ⟨owner,owned.keep rfl rfl (queued_waits owned.queue waits) (nextChannel_waits waits) (fun _ => .inl) rfl⟩
  | task found advanced => exact owned_advance storing owned found advanced
  | _ => exact ⟨owner,owned.keep rfl rfl owned.queue (Nat.le_refl _) (fun _ => .inl) rfl⟩

theorem owned_new (config : ServerConfig) (now : SystemTime) (owner : Channel → Nat) : Owned (.new config now) owner := by
  refine ⟨?_,rfl,queued_new _ owner _,?_,?_,?_,?_⟩
  · intro number p found
    simp [Server.new] at found
  · intro task member; cases member
  · intro ack member; cases member
  · intro pair member; cases member
  · intro record member; cases member

end OmniPaxosKV.Requests

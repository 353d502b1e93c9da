import OmniPaxosKV.Speculation

-- The proposal tasks between the waiter and the log: what each of them appends
-- and acks, and in which order.
namespace OmniPaxosKV.Appending
open Machine Transitions History Requests Execution Replay Speculation

variable {ack : Ack Command}

-- The log and the record of acks grow together, by the request of one task.
theorem step_log {s next : Server} (storing : Storing hasher s.seqPaxos) (ran : Step hasher s action next) :
    (next.log = s.log ∧ acks next = acks s) ∨
    ∃ req speculation, appends s action = some req ∧ next.log = s.log++[req] ∧
      acks next = acks s++[ackFor hasher s.seqPaxos req speculation] := by
  have role : ∀ {next : Server}, SameButRole s.seqPaxos next.seqPaxos → next.log = s.log ∧ acks next = acks s := by
    intro next same
    exact ⟨same.log,congrArg (fun history => history.acked.map Prod.fst) same.history⟩
  cases ran with
  | elect _ _ _ _ n => exact .inl (role (sameButRole_handleLeader _ n storing.batched))
  | reconnect => exact .inl (role (sameButRole_reconnected ..))
  | task found advanced =>
    cases advanced with
    | append released =>
      rename_i req entryId notifier speculation
      refine .inr ⟨req,speculation,?_,?_,?_⟩
      · rw [appends,found]
        exact released
      · rw [appendReleased_eq storing]
        rfl
      · rw [appendReleased_eq storing]
        exact List.map_append
    | _ => exact .inl ⟨rfl,rfl⟩
  | _ => exact .inl ⟨rfl,rfl⟩

-- Every ack the replica has queued for its clients, sent on or not.
def Queued (s : Server) (req : Command) (hash : UInt64) (speculation : Speculation) (idx : Nat) : Prop :=
  (∃ client, (client,.ack req hash speculation idx) ∈ s.toClient) ∨
  ∃ ack ∈ s.seqPaxos.outgoingClients, ack.req = req ∧ ack.hash = hash ∧ ack.speculation = speculation ∧
    ack.acceptedIdx = idx

def sentIdx (m : ClientId × ServerMessage) : Option Nat :=
  match m.2 with
  | .ack _ _ _ idx => some idx
  | _ => none

def indices (s : Server) : List Nat :=
  s.toClient.filterMap sentIdx++s.seqPaxos.outgoingClients.map Ack.acceptedIdx

-- No proposal task is between its append and the queue.
def Quiet (s : Server) : Prop := ∀ task ∈ s.seqPaxos.tasks, ∀ idx, queues idx task = false

-- The append that an ack was taken from.
structure Taken (hasher : List UInt8 → UInt64) (before after : Server) (action : Server.Act) (req : Command)
    (hash : UInt64) (idx : Nat) : Prop where
  appended : appends before action = some req
  length : after.log.length = idx
  last : after.log.getLast? = some req
  hashed : hash = hasher ((after.log.take idx).flatMap Entry.hash)

theorem Queued.recorded {s : Server} {hash : UInt64} (acking : Acking s) (queued : Queued s req hash speculation idx) :
    ∃ ack ∈ acks s, ack.req = req ∧ ack.hash = hash ∧ ack.speculation = speculation ∧ ack.acceptedIdx = idx := by
  rcases queued with ⟨client,sent⟩ | ⟨ack,member,facts⟩
  · exact acking.sent client req hash speculation idx sent
  · exact ⟨ack,acking.queued ack member,facts⟩

theorem count_indices (s : Server) (idx : Nat) :
    (indices s).count idx+s.seqPaxos.tasks.countP (queues idx) = underWay s idx := by
  have sent : (s.toClient.filterMap sentIdx).count idx = s.toClient.countP (sends idx) := by
    rw [List.count,List.countP_filterMap]
    apply List.countP_congr
    intro m _
    unfold sentIdx sends
    cases m.2 <;> simp
  have queued : (s.seqPaxos.outgoingClients.map Ack.acceptedIdx).count idx =
      s.seqPaxos.outgoingClients.countP (fun ack => ack.acceptedIdx == idx) := by
    rw [List.count,List.countP_map]
    rfl
  rw [indices,List.count_append,sent,queued]
  rfl

-- One ack is under way for each place in the log.
def Complete (s : Server) : Prop := ∀ idx, underWay s idx = if 1 ≤ idx ∧ idx ≤ s.log.length then 1 else 0

theorem complete_step {s next : Server} (storing : Storing hasher s.seqPaxos) (complete : Complete s)
    (ran : Step hasher s action next) : Complete next := by
  intro idx
  rw [underWay_step storing ran,complete idx]
  rcases step_log storing ran with ⟨log,_⟩ | ⟨req,_,_,log,_⟩
  · simp [log]
  · simp only [log,List.length_append,List.length_singleton]
    split <;> split <;> split <;> omega

theorem Complete.distinct {s : Server} (complete : Complete s) : (indices s).Nodup := by
  refine List.nodup_iff_count_le_one.mpr fun idx => ?_
  have counted := count_indices s idx
  rw [complete idx] at counted
  split at counted <;> omega

theorem Complete.covers {s : Server} (complete : Complete s) (quiet : Quiet s) :
    (indices s).Perm (List.range' 1 s.log.length) := by
  refine (List.perm_ext_iff_of_nodup complete.distinct List.nodup_range').mpr fun idx => ?_
  have counted := count_indices s idx
  have silent : s.seqPaxos.tasks.countP (queues idx) = 0 :=
    List.countP_eq_zero.mpr fun task member => by simp [quiet task member idx]
  rw [complete idx,silent] at counted
  rw [←List.count_pos_iff,List.mem_range'_1]
  split at counted <;> omega

-- Every queued ack was taken from an append of the run, their indices differ,
-- and with no ack on its way to the queue they are the places of the log.
structure Described (hasher : List UInt8 → UInt64) (origin : Server) (actions : List Server.Act) (s : Server) : Prop where
  taken : ∀ req hash speculation idx, Queued s req hash speculation idx →
    ∃ earlier action later before after, actions = earlier++action::later ∧
      Reaches (Server.step hasher) origin earlier before ∧ Server.step hasher before action = some after ∧
      Reaches (Server.step hasher) after later s ∧ Taken hasher before after action req hash idx
  distinct : (indices s).Nodup
  covers : Quiet s → (indices s).Perm (List.range' 1 s.log.length)

-- At the step where an ack is first recorded the log has just got its last entry.
theorem taken_step {s next : Server} (storing : Storing hasher s.seqPaxos) (ran : Step hasher s action next)
    (absent : ack ∉ acks s) (present : ack ∈ acks next) :
    Taken hasher s next action ack.req ack.hash ack.acceptedIdx := by
  rcases step_log storing ran with ⟨_,same⟩ | ⟨req,speculation,appended,log,more⟩
  · rw [same] at present
    exact absurd present absent
  · rw [more] at present
    have last := (List.mem_append.mp present).resolve_left absent
    cases List.mem_singleton.mp last
    refine ⟨appended,?_,?_,?_⟩
    · simp [log,ackFor]
    · simp [log,ackFor]
    · have whole : (s.log++[req]).take (s.log.length+1) = s.log++[req] := List.take_of_length_le (by simp)
      rw [log]
      exact congrArg (fun entries => hasher (entries.flatMap Entry.hash)) whole.symm

theorem acks_described (hasher : List UInt8 → UInt64) (config : ServerConfig) (now : SystemTime)
    (actions : List Server.Act) (s : Server) (path : Reaches (Server.step hasher) (.new config now) actions s) :
    Described hasher (.new config now) actions s := by
  have valid : ∀ {actions s}, Reaches (Server.step hasher) (.new config now) actions s →
      Storing hasher s.seqPaxos ∧ Acking s ∧ Complete s := by
    intro actions s path
    refine path.invariant (fun s => Storing hasher s.seqPaxos ∧ Acking s ∧ Complete s) ?_
      ⟨storing_new,acking_new config now,?_⟩
    · intro s action next known _ ran
      obtain ⟨storing,acking,complete⟩ := known
      have moved := step_sound ran
      exact ⟨storing_step storing moved,acking_step storing acking moved,complete_step storing complete moved⟩
    · intro idx
      rw [if_neg]
      · rfl
      · rintro ⟨positive,bound⟩
        exact Nat.not_succ_le_zero _ (Nat.le_trans positive bound)
  obtain ⟨_,acking,complete⟩ := valid path
  refine ⟨?_,complete.distinct,complete.covers⟩
  intro req hash speculation idx queued
  obtain ⟨ack,member,rfl,rfl,_,rfl⟩ := queued.recorded acking
  obtain ⟨earlier,action,later,before,after,same,first,ran,rest,absent,present⟩ :=
    path.moment (fun s => ack ∈ acks s) (List.not_mem_nil) member
  exact ⟨earlier,action,later,before,after,same,first,ran,rest,taken_step (valid first).1 (step_sound ran) absent present⟩

theorem acks_described_two : ∃ s, Reaches (Server.step SipHash.hash) sampleServer
    (twoEntries++[.task 1 0,.send,.task 0 0]) s ∧ indices s = [2,1] ∧
    Described SipHash.hash sampleServer (twoEntries++[.task 1 0,.send,.task 0 0]) s := by
  obtain ⟨s,path,both⟩ := run_reaches (Server.step SipHash.hash) (fun _ _ => True) (fun s => indices s = [2,1])
    sampleServer (twoEntries++[.task 1 0,.send,.task 0 0]) (by decide +kernel)
  exact ⟨s,path,both,acks_described SipHash.hash _ _ _ s path⟩

-- The entries of the log come in the order in which the waiter released them.
def InReleaseOrder (s : Server) : Prop := s.log.Sublist (s.seqPaxos.queue.released.map Prod.snd)

instance (s : Server) : Decidable (InReleaseOrder s) := inferInstanceAs (Decidable (List.Sublist _ _))

-- What the waiter released after the request it sent through this channel.
def releasedAfter (s : Server) (notifier : Channel) : List Command :=
  ((s.seqPaxos.queue.released.dropWhile fun pair => pair.1 ≠ notifier).drop 1).map Prod.snd

def waitsOn : Task Command → Option Channel
  | .awaitRelease _ notifier _ => some notifier
  | _ => none

-- A woken task appends before every task that was woken after it.
def WokenFirst (s : Server) : Server.Act → Prop
  | .task place _ => ∀ notifier ∈ s.seqPaxos.tasks[place]?.bind waitsOn, ∀ req ∈ releasedAfter s notifier, req ∉ s.log
  | _ => True

instance (s : Server) (action : Server.Act) : Decidable (WokenFirst s action) := by
  cases action <;> unfold WokenFirst <;> infer_instance

-- The proposal that a task has yet to append.
def proposes (number : Nat) : Task Command → Bool
  | .insert entry _ _ => entry.privateId == number
  | .announce entryId _ _ _ => entryId == number
  | .awaitRelease entryId _ _ => entryId == number
  | _ => false

-- How many tasks and log entries there are for one proposal.
def stands (s : Server) (number : Nat) : Nat :=
  s.seqPaxos.tasks.countP (proposes number)+(s.log.map Command.privateId).count number

theorem stands_grow (number : Nat) {s next : Server} (tasks : List (Task Command))
    (spawned : next.seqPaxos.tasks = s.seqPaxos.tasks++tasks) (log : next.log = s.log) :
    stands next number = stands s number+tasks.countP (proposes number) := by
  simp only [stands,spawned,log,List.countP_append]
  omega

theorem stands_move (number : Nat) {s next : Server} (found : s.seqPaxos.tasks[place]? = some task)
    (tasks : next.seqPaxos.tasks = s.seqPaxos.tasks.set place task') (log : next.log = s.log)
    (kept : proposes number task' = true → proposes number task = true) : stands next number ≤ stands s number := by
  have moved := countP_set (proposes number) found task'
  simp only [stands,tasks,log]
  cases after : proposes number task' with
  | true =>
    simp only [after,kept after] at moved
    omega
  | false =>
    simp only [after,Bool.false_eq_true,if_false] at moved
    omega

theorem background_proposes (idle : background task = true) (number : Nat) : proposes number task = false := by
  cases task <;> first | rfl | cases idle

theorem stands_append (number : Nat) {s next : Server}
    (found : s.seqPaxos.tasks[place]? = some (.awaitRelease req.privateId notifier speculation))
    (tasks : next.seqPaxos.tasks = s.seqPaxos.tasks.set place (.queueAck ack)) (log : next.log = s.log++[req]) :
    stands next number = stands s number := by
  have moved := countP_set (proposes number) found (.queueAck ack)
  simp only [proposes,Bool.false_eq_true,if_false,Nat.add_zero] at moved
  simp only [stands,tasks,log,List.map_append,List.count_append,List.map_cons,List.map_nil,List.count_singleton]
  rw [←moved]
  ac_rfl

-- Only a new proposal stands anywhere it did not stand before.
theorem stands_step {s next : Server} (storing : Storing hasher s.seqPaxos) (owned : Owned s owner)
    (ran : Step hasher s action next) (number : Nat) :
    stands next number ≤ stands s number+
      if s.privateCommandId < next.privateCommandId ∧ number = s.privateCommandId then 1 else 0 := by
  have still : ∀ {next : Server}, stands next number ≤ stands s number → stands next number ≤ stands s number+
      if s.privateCommandId < next.privateCommandId ∧ number = s.privateCommandId then 1 else 0 :=
    fun same => Nat.le_trans same (Nat.le_add_right _ _)
  have grown : ∀ {next : Server} (task : Task Command), next.seqPaxos.tasks = s.seqPaxos.tasks++[task] →
      next.log = s.log → proposes number task = false → stands next number ≤ stands s number := by
    intro next task spawned log silent
    have more := stands_grow number [task] spawned log
    simp only [List.countP_singleton,silent,Bool.false_eq_true,if_false,Nat.add_zero] at more
    exact Nat.le_of_eq more
  have role : ∀ {next : Server}, SameButRole s.seqPaxos next.seqPaxos → stands next number ≤ stands s number := by
    intro next same
    exact Nat.le_of_eq (stands_grow number [] (same.tasks.trans (List.append_nil _).symm) same.log)
  have proposed : ∀ {next : Server} (command : Command) (imLeader : Bool) (speculation : Speculation),
      next.seqPaxos.tasks = s.seqPaxos.tasks++[.insert command imLeader speculation] → next.log = s.log →
      command.privateId = s.privateCommandId → next.privateCommandId = s.privateCommandId+1 →
      stands next number ≤ stands s number+
        if s.privateCommandId < next.privateCommandId ∧ number = s.privateCommandId then 1 else 0 := by
    intro next command imLeader speculation spawned log numbered counter
    have more := stands_grow number [.insert command imLeader speculation] spawned log
    simp only [List.countP_singleton,proposes,numbered,beq_iff_eq] at more
    simp [more,counter,eq_comm]
  cases ran with
  | speculate _ _ made => exact proposed _ _ _ rfl rfl (by rw [←made]; rfl) rfl
  | propose _ _ made => exact proposed _ _ _ rfl rfl (by rw [←made]; rfl) rfl
  | elect _ _ _ _ n => exact still (role (sameButRole_handleLeader _ n storing.batched))
  | reconnect => exact still (role (sameButRole_reconnected ..))
  | synchronize _ idle => exact still (grown _ rfl rfl (background_proposes idle number))
  | confirm | newDeadline | clockSync => exact still (grown _ rfl rfl rfl)
  | task found advanced =>
    cases advanced with
    | insert kept => exact still (stands_move number found rfl rfl id)
    | insertLate chosen => exact still (stands_move number found rfl rfl id)
    | announce => exact still (stands_move number found rfl rfl id)
    | append released =>
      have same := (released_number owned (owned.tasks _ (List.mem_of_getElem? found)) released).2
      subst same
      rw [appendReleased_eq storing]
      exact still (Nat.le_of_eq (stands_append number found rfl rfl))
    | background before after =>
      exact still (stands_move number found rfl rfl (by simp [background_proposes after]))
    | _ => exact still (stands_move number found rfl rfl (by simp [proposes]))
  | _ => exact still (Nat.le_of_eq (stands_grow number [] (List.append_nil _).symm rfl))

-- A proposal stands at one place at most, and none before it is made.
structure Once (s : Server) : Prop where
  most : ∀ number, stands s number ≤ 1
  fresh : ∀ number, s.privateCommandId ≤ number → stands s number = 0

theorem step_counter {s next : Server} (ran : Step hasher s action next) : s.privateCommandId ≤ next.privateCommandId := by
  cases ran with
  | speculate | propose => exact Nat.le_succ _
  | _ => exact Nat.le_refl _

theorem step_once {s next : Server} (storing : Storing hasher s.seqPaxos) (owned : Owned s owner) (once : Once s)
    (ran : Step hasher s action next) : Once next := by
  have counter := step_counter ran
  refine ⟨?_,?_⟩
  · intro number
    have bound := stands_step storing owned ran number
    have before := once.most number
    split at bound
    · rename_i new
      have none := once.fresh number (Nat.le_of_eq new.2.symm)
      omega
    · omega
  · intro number beyond
    have bound := stands_step storing owned ran number
    have none := once.fresh number (Nat.le_trans counter beyond)
    split at bound <;> omega

theorem released_waits {q next : Queue Command} (waits : ReleaseOrder.Waits q next) : q.released <+: next.released := by
  cases waits with
  | release => exact List.prefix_append ..
  | _ => exact List.prefix_refl _

theorem step_released {s next : Server} (storing : Storing hasher s.seqPaxos) (ran : Step hasher s action next) :
    s.seqPaxos.queue.released <+: next.seqPaxos.queue.released := by
  have role : ∀ {next : Server}, SameButRole s.seqPaxos next.seqPaxos →
      s.seqPaxos.queue.released <+: next.seqPaxos.queue.released := by
    intro next same
    rw [same.queue]
  cases ran with
  | elect _ _ _ _ n => exact role (sameButRole_handleLeader _ n storing.batched)
  | reconnect => exact role (sameButRole_reconnected ..)
  | wait waits => exact released_waits waits
  | task found advanced =>
    cases advanced with
    | append released => rw [appendReleased_eq storing]; exact List.prefix_refl _
    | _ => exact List.prefix_refl _
  | _ => exact List.prefix_refl _

-- Nothing in the log comes after the request, so it goes to the end.
theorem sublist_concat {entries before later : List Command} (sub : entries.Sublist (before++req::later))
    (fresh : req ∉ entries) (first : ∀ x ∈ later, x ∉ entries) : (entries++[req]).Sublist (before++req::later) := by
  obtain ⟨front,back,rfl,inBefore,inRest⟩ := List.sublist_append_iff.mp sub
  have empty : back = [] := by
    refine List.eq_nil_iff_forall_not_mem.mpr fun x member => ?_
    have there := List.mem_append_right front member
    rcases List.mem_cons.mp (inRest.subset member) with rfl | after
    · exact fresh there
    · exact first x after there
  subst empty
  rw [List.append_nil]
  exact inBefore.append (List.singleton_sublist.mpr List.mem_cons_self)

theorem released_split {s : Server} (released : s.seqPaxos.queue.released.lookup notifier = some req) :
    ∃ before, s.seqPaxos.queue.released.map Prod.snd = before++req::releasedAfter s notifier := by
  obtain ⟨before,after,split,others⟩ := List.lookup_eq_some_iff.mp released
  have passed : ∀ pair ∈ before, decide (pair.1 ≠ notifier) = true := by
    intro pair member
    have distinct : notifier ≠ pair.1 := by simpa using others pair member
    exact decide_eq_true distinct.symm
  refine ⟨before.map Prod.snd,?_⟩
  rw [releasedAfter,split,List.dropWhile_append_of_pos passed]
  simp

theorem inReleaseOrder_step {s next : Server} (storing : Storing hasher s.seqPaxos) (owned : Owned s owner) (once : Once s)
    (ordered : InReleaseOrder s) (wokenFirst : WokenFirst s action) (ran : Step hasher s action next) :
    InReleaseOrder next := by
  have grows := (step_released storing ran).map Prod.snd
  rcases step_log storing ran with ⟨log,_⟩ | ⟨req,_,appended,log,_⟩
  · unfold InReleaseOrder
    rw [log]
    exact ordered.trans grows.sublist
  · cases action with
    | task place now =>
      obtain ⟨task,found,released⟩ := Option.bind_eq_some_iff.mp appended
      cases task with
      | awaitRelease entryId notifier speculation =>
        have own := (released_number owned (owned.tasks _ (List.mem_of_getElem? found)) released).2
        obtain ⟨before,split⟩ := released_split released
        have first := wokenFirst notifier (by simp [found,waitsOn])
        have fresh : req ∉ s.log := by
          intro member
          have most := once.most entryId
          have task : 0 < s.seqPaxos.tasks.countP (proposes entryId) :=
            List.countP_pos_iff.mpr ⟨_,List.mem_of_getElem? found,by simp [proposes]⟩
          have entry : 0 < (s.log.map Command.privateId).count entryId :=
            List.count_pos_iff.mpr (List.mem_map.mpr ⟨req,member,own⟩)
          unfold stands at most
          omega
        unfold InReleaseOrder at ordered ⊢
        rw [split] at ordered grows
        rw [log]
        exact (sublist_concat ordered fresh first).trans grows.sublist
      | _ => cases released
    | _ => cases appended

theorem log_in_release_order (hasher : List UInt8 → UInt64) (config : ServerConfig) (now : SystemTime)
    (actions : List Server.Act) (s : Server) (path : Runs (Server.step hasher) WokenFirst (.new config now) actions s) :
    InReleaseOrder s := by
  have start : Once (.new config now) := ⟨fun _ => Nat.zero_le 1,fun _ _ => rfl⟩
  have all := path.invariant
    (fun s => Storing hasher s.seqPaxos ∧ (∃ owner, Owned s owner) ∧ Once s ∧ InReleaseOrder s) ?_
    ⟨storing_new,⟨_,owned_new config now (fun _ => 0)⟩,start,List.Sublist.slnil⟩
  · exact all.2.2.2
  · intro s action next known wokenFirst ran
    obtain ⟨storing,⟨owner,owned⟩,once,ordered⟩ := known
    have moved := step_sound ran
    exact ⟨storing_step storing moved,owned_step storing owned moved,step_once storing owned once moved,
      inReleaseOrder_step storing owned once ordered wokenFirst moved⟩

-- Two requests wait in the buffers, and the waiter releases both before either task runs on.
def bothReleased : List Server.Act :=
  [Server.Act.client 1 (.append 0 (.put "x" "1")),.client 1 (.append 1 (.put "x" "2")),.task 0 0,.task 1 0,.wait,.wait]++
  List.replicate 21 (Server.Act.clockTick true)++[Server.Act.wait,.wait,.wait,.clockTick true,.wait]

theorem log_in_release_order_woken : ∃ s, Runs (Server.step SipHash.hash) WokenFirst sampleServer
    (bothReleased++[.task 0 0,.task 1 0]) s ∧ InReleaseOrder s ∧ s.log.map Command.privateId = [0,1] := by
  obtain ⟨s,path,logged⟩ := run_reaches (Server.step SipHash.hash) WokenFirst
    (fun s => s.log.map Command.privateId = [0,1]) sampleServer (bothReleased++[.task 0 0,.task 1 0]) (by decide +kernel)
  exact ⟨s,path,log_in_release_order SipHash.hash _ _ _ s path,logged⟩

-- The task woken second wins the race for the storage.
theorem log_out_of_release_order : ¬ ∀ (config : ServerConfig) (now : SystemTime) (actions : List Server.Act) (s : Server),
    Reaches (Server.step SipHash.hash) (.new config now) actions s → InReleaseOrder s := by
  intro claimed
  obtain ⟨s,path,disordered⟩ := run_reaches (Server.step SipHash.hash) (fun _ _ => True) (fun s => ¬ InReleaseOrder s)
    sampleServer (bothReleased++[.task 1 0,.task 0 0]) (by decide +kernel)
  exact disordered (claimed _ _ _ s path)

end OmniPaxosKV.Appending

import OmniPaxosKV.Config
import OmniPaxosKV.Custody
import OmniPaxosKV.SipHash
import OmniPaxosKV.Timekeeping
import OmniPaxosKV.Transitions

-- What the batch size does to the tasks of the proposals. An append that does not
-- fill the batch stores nothing and has no index to acknowledge.
namespace OmniPaxosKV.Batching
open Machine Transitions Custody

-- The stages of the task that a proposal starts.
def proposing : Task T → Bool
  | .insert .. => true
  | .announce .. => true
  | .awaitRelease .. => true
  | .queueAck _ => true
  | _ => false

-- Acknowledged indices count the entries up to the acknowledged one.
def InLog (log : List T) (ack : Ack T) : Prop := 0 < ack.acceptedIdx ∧ log[ack.acceptedIdx-1]? = some ack.req

-- A step of such a task does not panic, and the acks it leaves queued for the
-- clients are of stored requests.
def Survives (hasher : List UInt8 → UInt64) (s : Server) : Server.Act → Prop
  | .task place now => ∀ task next, s.seqPaxos.tasks[place]? = some task → proposing task = true →
      s.step hasher (.task place now) = some next →
      (∀ task', next.seqPaxos.tasks[place]? = some task' → task' ≠ .panicked) ∧
      ∀ ack ∈ next.seqPaxos.outgoingClients, InLog next.log ack
  | _ => True

-- The released request makes the batch full.
def Fills (s : Server) : Server.Act → Prop
  | .task place _ => ∀ entryId notifier speculation,
      s.seqPaxos.tasks[place]? = some (.awaitRelease entryId notifier speculation) →
      (s.seqPaxos.queue.released.lookup notifier).isSome = true →
      s.seqPaxos.internalStorage.stateCache.batchSize ≤ s.seqPaxos.internalStorage.stateCache.batchedEntries.length+1
  | _ => True

section Appends
variable {T : Type} [Entry T] {hasher : List UInt8 → UInt64}

-- All that is batched goes into the log, the released request last.
theorem appendReleased_full (s : SequencePaxos T) (req : T) (speculation : Speculation)
    (full : s.internalStorage.stateCache.batchSize ≤ s.internalStorage.stateCache.batchedEntries.length+1) :
    let flushed := s.internalStorage.stateCache.batchedEntries++[req]
    let idx := s.internalStorage.stateCache.acceptedIdx+flushed.length
    let ack : Ack T := ⟨Request.clientId req,req,hasher ((s.log++flushed).flatMap Entry.hash),speculation,idx⟩
    s.appendReleased hasher req speculation =
      ({s with
        internalStorage:=⟨{s.internalStorage.storage with log:=s.log++flushed},
          {s.internalStorage.stateCache with batchedEntries:=[],acceptedIdx:=idx}⟩
        history:={s.history with acked:=s.history.acked++[(ack,s.log++flushed)]}},.queueAck ack) := by
  have enough : s.internalStorage.stateCache.batchSize ≤ (s.internalStorage.stateCache.batchedEntries++[req]).length := by
    simpa using full
  simp only [SequencePaxos.appendReleased,InternalStorage.appendEntriesAndGetAcceptedIdx,StateCache.appendEntries,
    StateCache.takeEntriesIfBatchIsFull,StateCache.takeBatchedEntries,enough,if_true]
  rfl

theorem appendReleased_short (s : SequencePaxos T) (req : T) (speculation : Speculation)
    (short : s.internalStorage.stateCache.batchedEntries.length+1 < s.internalStorage.stateCache.batchSize) :
    s.appendReleased hasher req speculation =
      ({s with
        internalStorage:={s.internalStorage with stateCache:={s.internalStorage.stateCache with
          batchedEntries:=s.internalStorage.stateCache.batchedEntries++[req]}}},.panicked) := by
  have missing : ¬ s.internalStorage.stateCache.batchSize ≤ (s.internalStorage.stateCache.batchedEntries++[req]).length := by
    simpa using short
  simp only [SequencePaxos.appendReleased,InternalStorage.appendEntriesAndGetAcceptedIdx,StateCache.appendEntries,
    StateCache.takeEntriesIfBatchIsFull,missing,if_false]

end Appends

def acknowledges : Task T → Bool
  | .queueAck _ => true
  | _ => false

-- An ack that a task will queue or has queued.
def Acked (s : SequencePaxos T) (ack : Ack T) : Prop := Task.queueAck ack ∈ s.tasks ∨ ack ∈ s.outgoingClients

structure Batched (limit : Nat) (s : SequencePaxos T) : Prop where
  size : s.internalStorage.stateCache.batchSize = limit
  accepted : s.internalStorage.stateCache.acceptedIdx = s.log.length
  acked : ∀ ack, Acked s ack → InLog s.log ack

theorem InLog.grow {log log' : List T} {ack : Ack T} (stored : InLog log ack) (grows : log <+: log') : InLog log' ack :=
  ⟨stored.1,getElem?_grown grows stored.2⟩

-- The storage keeps its promises as it grows, and no ack comes from nowhere.
theorem Batched.next {s s' : SequencePaxos T} (batched : Batched limit s)
    (same : s'.internalStorage.stateCache.batchSize = s.internalStorage.stateCache.batchSize)
    (grows : s.log <+: s'.log)
    (accepted : s.internalStorage.stateCache.acceptedIdx+s'.log.length =
      s'.internalStorage.stateCache.acceptedIdx+s.log.length)
    (acked : ∀ ack, Acked s' ack → Acked s ack ∨ InLog s'.log ack) : Batched limit s' := by
  refine ⟨same.trans batched.size,?_,?_⟩
  · have before := batched.accepted
    omega
  · intro ack known
    rcases acked ack known with old | new
    · exact (batched.acked ack old).grow grows
    · exact new

theorem Batched.keep {s s' : SequencePaxos T} (batched : Batched limit s) (storage : s'.log = s.log)
    (same : s'.internalStorage.stateCache.batchSize = s.internalStorage.stateCache.batchSize)
    (accepted : s'.internalStorage.stateCache.acceptedIdx = s.internalStorage.stateCache.acceptedIdx)
    (acked : ∀ ack, Acked s' ack → Acked s ack) : Batched limit s' := by
  refine batched.next same ?_ ?_ fun ack known => .inl (acked ack known)
  · rw [storage]
  · rw [accepted,storage]

theorem acked_spawn {s s' : SequencePaxos T} {task : Task T} (other : acknowledges task = false)
    (tasks : s'.tasks = s.tasks++[task]) (queued : s'.outgoingClients = s.outgoingClients) :
    ∀ ack, Acked s' ack → Acked s ack := by
  intro ack known
  unfold Acked at known ⊢
  rw [tasks,queued] at known
  rcases known with member | member
  · rcases List.mem_append.mp member with old | new
    · exact .inl old
    · rw [←List.mem_singleton.mp new] at other
      cases other
  · exact .inr member

theorem acked_set {s s' : SequencePaxos T} {task' : Task T} (other : acknowledges task' = false)
    (tasks : s'.tasks = s.tasks.set place task') (queued : s'.outgoingClients = s.outgoingClients) :
    ∀ ack, Acked s' ack → Acked s ack := by
  intro ack known
  unfold Acked at known ⊢
  rw [tasks,queued] at known
  rcases known with member | member
  · rcases List.mem_or_eq_of_mem_set member with old | new
    · exact .inl old
    · rw [←new] at other
      cases other
  · exact .inr member

theorem background_acks {task : Task T} (idle : background task = true) : acknowledges task = false := by
  cases task <;> first | rfl | cases idle

theorem batched_leader {s : SequencePaxos T} (batched : Batched limit s) (n : Ballot) : Batched limit (s.handleLeader n) := by
  unfold SequencePaxos.handleLeader
  split
  · exact batched
  · split
    · refine batched.next rfl (List.prefix_append ..) ?_ fun ack known => .inl known
      change s.internalStorage.stateCache.acceptedIdx+(s.log++s.internalStorage.stateCache.batchedEntries).length =
        s.internalStorage.stateCache.acceptedIdx+s.internalStorage.stateCache.batchedEntries.length+s.log.length
      rw [List.length_append]
      omega
    · exact batched.keep rfl rfl rfl fun _ => id

theorem batched_reconnected {s : SequencePaxos T} (batched : Batched limit s) (pid : NodeId) :
    Batched limit (s.reconnected pid) := by
  unfold SequencePaxos.reconnected
  split
  · exact batched
  · split
    · exact batched.keep rfl rfl rfl fun _ => id
    · exact batched

theorem inLog_last {ack : Ack T} (log batched : List T)
    (idx : ack.acceptedIdx = log.length+(batched++[ack.req]).length) : InLog (log++(batched++[ack.req])) ack := by
  rw [List.length_append,List.length_singleton] at idx
  have last : ack.acceptedIdx-1 = (log++batched).length := by
    rw [List.length_append]
    omega
  refine ⟨by omega,?_⟩
  rw [last,←List.append_assoc]
  exact List.getElem?_concat_length

theorem batched_append [Entry T] {s : SequencePaxos T} (batched : Batched limit s) (req : T) (speculation : Speculation) :
    Batched limit {(s.appendReleased hasher req speculation).1 with
      tasks:=s.tasks.set place (s.appendReleased hasher req speculation).2} := by
  by_cases full : s.internalStorage.stateCache.batchSize ≤ s.internalStorage.stateCache.batchedEntries.length+1
  · rw [appendReleased_full s req speculation full]
    refine batched.next rfl (List.prefix_append ..) ?_ ?_
    · change s.internalStorage.stateCache.acceptedIdx+
          (s.log++(s.internalStorage.stateCache.batchedEntries++[req])).length =
        s.internalStorage.stateCache.acceptedIdx+(s.internalStorage.stateCache.batchedEntries++[req]).length+s.log.length
      rw [List.length_append]
      omega
    · intro ack known
      rcases known with member | member
      · rcases List.mem_or_eq_of_mem_set member with old | new
        · exact .inl (.inl old)
        · cases new
          refine .inr (inLog_last s.log _ ?_)
          rw [←batched.accepted]
      · exact .inl (.inr member)
  · rw [appendReleased_short s req speculation (Nat.lt_of_not_le full)]
    exact batched.keep rfl rfl rfl (acked_set rfl rfl rfl)

theorem batched_task [Entry T] {s next : SequencePaxos T} (batched : Batched limit s) (found : s.tasks[place]? = some task)
    (ran : Advance hasher s task next task') : Batched limit {next with tasks:=s.tasks.set place task'} := by
  cases ran with
  | append released => exact batched_append batched _ _
  | queueAck =>
    rename_i ack
    refine batched.keep rfl rfl rfl ?_
    intro other known
    rcases known with member | member
    · rcases List.mem_or_eq_of_mem_set member with old | new
      · exact .inl old
      · cases new
    · rcases List.mem_append.mp member with old | new
      · exact .inr old
      · cases List.mem_singleton.mp new
        exact .inl (List.mem_of_getElem? found)
  | background before after clock extra syncs => exact batched.keep rfl rfl rfl (acked_set (background_acks after) rfl rfl)
  | setDecidedIdx | free | freeNothing | insert | insertLate | announce | lose =>
    exact batched.keep rfl rfl rfl (acked_set rfl rfl rfl)

theorem batched_step {s next : Server} (batched : Batched limit s.seqPaxos) (ran : Step hasher s action next) :
    Batched limit next.seqPaxos := by
  cases ran with
  | elect _ _ _ _ n => exact batched_leader batched n
  | reconnect _ => exact batched_reconnected batched _
  | task found advanced => exact batched_task batched found advanced
  | synchronize _ sync => exact batched.keep rfl rfl rfl (acked_spawn (background_acks sync) rfl rfl)
  | speculate | propose | confirm | newDeadline | clockSync =>
    exact batched.keep rfl rfl rfl (acked_spawn rfl rfl rfl)
  | send =>
    refine batched.keep rfl rfl rfl ?_
    intro ack known
    rcases known with member | member
    · exact .inl member
    · cases member
  | _ => exact batched.keep rfl rfl rfl fun _ => id

-- A proposal's task panics at its append and nowhere else.
theorem advance_panics [Entry T] {s next : SequencePaxos T} (proposes : proposing task = true)
    (ran : Advance hasher s task next task') (ending : task' = .panicked) : ∃ entryId notifier speculation req,
      task = .awaitRelease entryId notifier speculation ∧ s.queue.released.lookup notifier = some req ∧
      (s.appendReleased hasher req speculation).2 = .panicked := by
  cases ran with
  | append released => exact ⟨_,_,_,_,rfl,released,ending⟩
  | background before => cases task <;> first | (cases before; done) | cases proposes
  | _ => cases ending

theorem step_task {s next : Server} (ran : s.step hasher (.task place now) = some next) :
    ∃ task after task', s.seqPaxos.tasks[place]? = some task ∧ s.seqPaxos.advance hasher now task = some (after,task') ∧
      next.seqPaxos.tasks[place]? = some task' := by
  simp only [Server.step] at ran
  split at ran
  · cases ran
  · obtain ⟨seqPaxos,moved,rfl⟩ := Option.map_eq_some_iff.mp ran
    unfold SequencePaxos.runTask at moved
    split at moved
    · cases moved
    · rename_i task found
      split at moved
      · cases moved
      · rename_i after task' advanced
        cases Option.some.inj moved
        refine ⟨task,after,task',found,advanced,?_⟩
        have inside := (List.getElem?_eq_some_iff.mp found).1
        rw [←(advance_sound advanced).tasks] at inside
        exact List.getElem?_set_self inside

-- In a state of a run, a step survives exactly if it fills the batch.
theorem survives_iff {s next : Server} (batched : Batched limit s.seqPaxos) (ran : s.step hasher action = some next) :
    Survives hasher s action ↔ Fills s action := by
  cases action with
  | task place now =>
    obtain ⟨task,after,task',found,advanced,placed⟩ := step_task ran
    constructor
    · intro survives entryId notifier speculation waits released
      cases waits.symm.trans found
      obtain ⟨req,taken⟩ := Option.isSome_iff_exists.mp released
      simp only [SequencePaxos.advance,taken,Option.some.injEq] at advanced
      refine Nat.le_of_not_lt fun short => (survives _ _ found rfl ran).1 task' placed ?_
      rw [appendReleased_short _ req speculation short] at advanced
      exact (congrArg Prod.snd advanced).symm
    · intro fills other next' found' proposes ran'
      cases found.symm.trans found'
      cases Option.some.inj (ran.symm.trans ran')
      refine ⟨?_,fun ack member => (batched_step batched (step_sound ran)).acked ack (.inr member)⟩
      intro task'' placed' ending
      cases Option.some.inj (placed.symm.trans placed')
      obtain ⟨entryId,notifier,speculation,req,rfl,released,panics⟩ := advance_panics proposes (advance_sound advanced) ending
      have full := fills entryId notifier speculation found (by rw [released]; rfl)
      rw [appendReleased_full _ req speculation full] at panics
      cases panics
  | _ => exact Iff.rfl

def serverOn (config : OmniPaxosConfig) (numClients : Nat) (omnipaxos : OmniPaxos Command) : Server where
  id := config.serverConfig.pid
  numClients := numClients
  omnipaxos := omnipaxos

theorem build_parts {config : OmniPaxosConfig} {clock : ClockState} {omnipaxos : OmniPaxos T}
    (built : config.build {} clock = .ok omnipaxos) :
    omnipaxos.seqPaxos.internalStorage = ⟨{nProm:=some {}},{batchSize:=config.serverConfig.batchSize}⟩ ∧
    omnipaxos.seqPaxos.queue = {clock:=clock} ∧ omnipaxos.seqPaxos.state = (.follower,.none) ∧
    omnipaxos.seqPaxos.tasks = [] ∧ omnipaxos.seqPaxos.outgoingClients = [] := by
  unfold OmniPaxosConfig.build at built
  split at built
  · cases built
  · unfold SequencePaxos.withStorage at built
    split at built
    · cases built
    · cases built
      exact ⟨rfl,rfl,rfl,rfl,rfl⟩

theorem bind_ok {x : Except E α} {f : α → Except E β} (ran : x >>= f = .ok b) : ∃ a, x = .ok a ∧ f a = .ok b := by
  cases x with
  | error err => cases ran
  | ok a => exact ⟨a,rfl,ran⟩

theorem valid_batchSize {config : OmniPaxosConfig} {clock : ClockState} {omnipaxos : OmniPaxos T}
    (built : config.build {} clock = .ok omnipaxos) : 1 ≤ config.serverConfig.batchSize := by
  unfold OmniPaxosConfig.build at built
  split at built
  · cases built
  · rename_i valid
    obtain ⟨_,_,valid⟩ := bind_ok valid
    obtain ⟨_,server,_⟩ := bind_ok valid
    obtain ⟨_,_,server⟩ := bind_ok server
    obtain ⟨_,_,server⟩ := bind_ok server
    obtain ⟨_,batch,_⟩ := bind_ok server
    unfold validConfig at batch
    split at batch
    · rename_i nonzero
      exact Nat.pos_of_ne_zero (of_decide_eq_true nonzero)
    · cases batch

theorem batched_new {config : OmniPaxosConfig} {clock : ClockState} {omnipaxos : OmniPaxos Command}
    (built : config.build {} clock = .ok omnipaxos) (numClients : Nat) :
    Batched config.serverConfig.batchSize (serverOn config numClients omnipaxos).seqPaxos := by
  obtain ⟨storage,_,_,tasks,clients⟩ := build_parts built
  refine ⟨?_,?_,?_⟩
  · change omnipaxos.seqPaxos.internalStorage.stateCache.batchSize = _
    rw [storage]
  · change omnipaxos.seqPaxos.internalStorage.stateCache.acceptedIdx = omnipaxos.seqPaxos.internalStorage.storage.log.length
    rw [storage]
    rfl
  · intro ack known
    change Task.queueAck ack ∈ omnipaxos.seqPaxos.tasks ∨ ack ∈ omnipaxos.seqPaxos.outgoingClients at known
    rw [tasks,clients] at known
    rcases known with member | member <;> cases member

section Release
variable (hasher : List UInt8 → UInt64)

-- What a clock tick leaves alone, and the tasks it may add to.
structure Ticked (s s' : Server) : Prop where
  mainLoop : s'.mainLoop = s.mainLoop
  storage : s'.seqPaxos.internalStorage = s.seqPaxos.internalStorage
  waiter : s'.seqPaxos.queue.waiter = s.seqPaxos.queue.waiter
  released : s'.seqPaxos.queue.released = s.seqPaxos.queue.released
  tasks : s.seqPaxos.tasks <+: s'.seqPaxos.tasks

theorem clockTick_queue (s : SequencePaxos Command) (fast : Bool) : (s.clockTick fast).queue = (s.queue.tick fast).1 := by
  unfold SequencePaxos.clockTick
  dsimp only
  split <;> rfl

theorem ticked_clockTick (s : Server) (fast : Bool) : Ticked s (s.withPaxos (s.seqPaxos.clockTick fast)) := by
  unfold SequencePaxos.clockTick
  dsimp only
  split
  · exact ⟨rfl,rfl,rfl,rfl,List.prefix_append ..⟩
  · exact ⟨rfl,rfl,rfl,rfl,List.prefix_refl _⟩

theorem Ticked.trans {s s' s'' : Server} (one : Ticked s s') (two : Ticked s' s'') : Ticked s s'' :=
  ⟨two.mainLoop.trans one.mainLoop,two.storage.trans one.storage,two.waiter.trans one.waiter,
    two.released.trans one.released,one.tasks.trans two.tasks⟩

theorem tick_later (c : ClockState) : c.logicalTime < (c.tick true).1.logicalTime := by
  rw [(Timekeeping.tick_fields c true).2.2.2.1]
  exact Nat.lt_add_of_pos_right (Nat.add_pos_left (by decide) _)

-- The clock ticks until the one registered deadline is past.
theorem ticks_fire {s : Server} (idle : s.mainLoop = .idle) (awaits : Awaits s.seqPaxos.queue.clock deadline ch) :
    ∃ actions s', Reaches (Server.step hasher) s actions s' ∧ Ticked s s' ∧ ch ∈ s'.seqPaxos.queue.fired := by
  generalize left : Nat.sub deadline s.seqPaxos.queue.clock.logicalTime = count
  induction count using Nat.strongRecOn generalizing s with
  | ind count ih =>
    let next := s.withPaxos (s.seqPaxos.clockTick true)
    have ran : s.step hasher (.clockTick true) = some next := by
      simp only [Server.step]
      exact if_neg (by rw [idle]; simp)
    have one : Reaches (Server.step hasher) s [.clockTick true] next := .snoc .nil trivial ran
    have ticked := ticked_clockTick s true
    have queue : next.seqPaxos.queue = (s.seqPaxos.queue.tick true).1 := clockTick_queue s.seqPaxos true
    have fires : (s.seqPaxos.queue.clock.tick true).2.1 = [ch] → ch ∈ next.seqPaxos.queue.fired := by
      intro notified
      rw [queue]
      simp only [Queue.tick,notified]
      exact List.mem_append_right _ (List.mem_singleton.mpr rfl)
    rcases Nat.le_total deadline s.seqPaxos.queue.clock.logicalTime with due | early
    · exact ⟨_,next,one,ticked,fires (tick_due awaits due)⟩
    · rcases tick_awaits true awaits with ⟨still,_⟩ | ⟨_,notified⟩
      · by_cases due : deadline = s.seqPaxos.queue.clock.logicalTime
        · exact ⟨_,next,one,ticked,fires (tick_due awaits (Nat.le_of_eq due))⟩
        · have later := tick_later s.seqPaxos.queue.clock
          have clock : next.seqPaxos.queue.clock = (s.seqPaxos.queue.clock.tick true).1 := by rw [queue]; rfl
          have closer : Nat.sub deadline next.seqPaxos.queue.clock.logicalTime < count := by
            rw [clock,←left]
            exact Nat.sub_lt_sub_left (Nat.lt_of_le_of_ne early (Ne.symm due)) later
          rw [←clock] at still
          obtain ⟨actions,s',path,rest,fired⟩ := ih _ closer (ticked.mainLoop.trans idle) still rfl
          exact ⟨_,s',one.append path,ticked.trans rest,fired⟩
      · exact ⟨_,next,one,ticked,fires notified⟩

-- A first request gets as far as its append.
theorem first_release {config : OmniPaxosConfig} {omnipaxos : OmniPaxos Command} {drift uncertainty : Duration}
    {now : SystemTime} (built : config.build {} (.new master drift uncertainty syncFreq now) = .ok omnipaxos)
    (numClients : Nat) : ∃ actions s, Reaches (Server.step hasher) (serverOn config numClients omnipaxos) actions s ∧
      s.mainLoop = .idle ∧ s.seqPaxos.internalStorage.stateCache = {batchSize:=config.serverConfig.batchSize} ∧
      ∃ entryId notifier speculation req, s.seqPaxos.tasks[0]? = some (.awaitRelease entryId notifier speculation) ∧
        s.seqPaxos.queue.released.lookup notifier = some req := by
  obtain ⟨storage,queue,state,tasks,clients⟩ := build_parts built
  clear built
  obtain ⟨seqPaxos,ble,electionClock⟩ := omnipaxos
  obtain ⟨internalStorage,_,pid,peers,_,outgoing,_,nLeader,_,history⟩ := seqPaxos
  dsimp only at storage queue state tasks clients
  subst storage queue state tasks clients
  let start : Server := serverOn config numClients
    ⟨⟨⟨{nProm:=some {}},{batchSize:=config.serverConfig.batchSize}⟩,{clock:=.new master drift uncertainty syncFreq now},
      pid,peers,(.follower,.none),outgoing,[],nLeader,[],history⟩,ble,electionClock⟩
  have waiting : ∃ s, Reaches (Server.step hasher) start [.client 1 (.append 0 (.get "x")),.task 0 0,.wait,.wait] s ∧
      s.mainLoop = .idle ∧ s.seqPaxos.internalStorage.stateCache = {batchSize:=config.serverConfig.batchSize} ∧
      s.seqPaxos.tasks[0]? = some (.awaitRelease 0 0 none) ∧ s.seqPaxos.queue.released = [] ∧
      ∃ req, s.seqPaxos.queue.waiter = .waiting (some 0) req 1 ∧ Awaits s.seqPaxos.queue.clock req.deadline 1 := by
    refine ⟨_,run_sound rfl,rfl,rfl,rfl,rfl,_,rfl,rfl,rfl⟩
  obtain ⟨s,path,idle,cache,task,none,req,waits,awaits⟩ := waiting
  obtain ⟨actions,s',ticks,ticked,fired⟩ := ticks_fire hasher idle awaits
  let released : Server := s'.withPaxos {s'.seqPaxos with
    queue:={s'.seqPaxos.queue with waiter:=.idle,released:=s'.seqPaxos.queue.released++[(0,req)]}}
  have releases : s'.step hasher .wait = some released := by
    have busy : s'.seqPaxos.queue.waiter = .waiting (some 0) req 1 := ticked.waiter.trans waits
    have alive : ¬ s'.mainLoop = .panicked := by rw [ticked.mainLoop,idle]; simp
    simp only [Server.step,if_neg alive,SequencePaxos.wait,Queue.wait,busy,if_pos fired]
    rfl
  refine ⟨_,released,.snoc (path.append ticks) trivial releases,ticked.mainLoop.trans idle,?_,0,0,_,req,
    getElem?_grown ticked.tasks task,?_⟩
  · rw [←cache,←ticked.storage]
    rfl
  · change (s'.seqPaxos.queue.released++[(0,req)]).lookup 0 = some req
    rw [ticked.released,none]
    rfl

end Release

section Runs
variable {hasher : List UInt8 → UInt64} {config : OmniPaxosConfig} {omnipaxos : OmniPaxos Command} {clock : ClockState}

theorem batched_runs (built : config.build {} clock = .ok omnipaxos)
    (path : Reaches (Server.step hasher) (serverOn config numClients omnipaxos) actions s) :
    Batched config.serverConfig.batchSize s.seqPaxos :=
  path.invariant (fun s => Batched config.serverConfig.batchSize s.seqPaxos)
    (fun _ _ _ known _ ran => batched_step known (step_sound ran)) (batched_new built numClients)

theorem survives_fills (built : config.build {} clock = .ok omnipaxos) :
    Runs (Server.step hasher) (Survives hasher) (serverOn config numClients omnipaxos) actions s ↔
    Runs (Server.step hasher) Fills (serverOn config numClients omnipaxos) actions s := by
  constructor
  · exact fun runs => runs.exchange fun _ _ _ _ _ _ path ran => (survives_iff (batched_runs built path) ran).mp
  · exact fun runs => runs.exchange fun _ _ _ _ _ _ path ran => (survives_iff (batched_runs built path) ran).mpr

-- A batch of more than one entry is not full with the first.
theorem survivors_single {drift uncertainty : Duration} {now : SystemTime}
    (built : config.build {} (.new master drift uncertainty syncFreq now) = .ok omnipaxos)
    (survive : ∀ actions s, Reaches (Server.step hasher) (serverOn config numClients omnipaxos) actions s →
      Runs (Server.step hasher) (Survives hasher) (serverOn config numClients omnipaxos) actions s) :
    config.serverConfig.batchSize = 1 := by
  obtain ⟨actions,s,path,idle,cache,entryId,notifier,speculation,req,waits,released⟩ :=
    first_release hasher built numClients
  have ran : ∃ next, s.step hasher (.task 0 0) = some next := by
    simp [Server.step,idle,SequencePaxos.runTask,waits,SequencePaxos.advance,released]
  obtain ⟨next,ran⟩ := ran
  have fills := ((survives_fills built).mp (survive _ next (.snoc path trivial ran))).meets path
  have full := fills entryId notifier speculation waits (by rw [released]; rfl)
  rw [cache] at full
  exact Nat.le_antisymm full (valid_batchSize built)

theorem single_survives (built : config.build {} clock = .ok omnipaxos) (single : config.serverConfig.batchSize = 1)
    (path : Reaches (Server.step hasher) (serverOn config numClients omnipaxos) actions s) :
    Runs (Server.step hasher) (Survives hasher) (serverOn config numClients omnipaxos) actions s := by
  refine (survives_fills built).mpr (path.exchange ?_)
  intro earlier middle action later next same reached ran _
  cases action with
  | task place now =>
    intro entryId notifier speculation waits released
    rw [(batched_runs built reached).size,single]
    exact Nat.le_add_left ..
  | _ => trivial

end Runs

-- A run survives exactly if each of its appends fills the batch, and every run does
-- exactly if batches have one entry.
theorem proposals_survive_iff (hasher : List UInt8 → UInt64) (config : OmniPaxosConfig) (master : NodeId)
    (drift uncertainty : Duration) (syncFreq : Nat) (now : SystemTime) (omnipaxos : OmniPaxos Command) (numClients : Nat)
    (built : config.build {} (.new master drift uncertainty syncFreq now) = .ok omnipaxos) :
    (∀ actions s, Runs (Server.step hasher) (Survives hasher) (serverOn config numClients omnipaxos) actions s ↔
      Runs (Server.step hasher) Fills (serverOn config numClients omnipaxos) actions s) ∧
    ((∀ actions s, Reaches (Server.step hasher) (serverOn config numClients omnipaxos) actions s →
      Runs (Server.step hasher) (Survives hasher) (serverOn config numClients omnipaxos) actions s) ↔
      config.serverConfig.batchSize = 1) :=
  ⟨fun _ _ => survives_fills built,survivors_single built,fun single _ _ => single_survives built single⟩

def sampleNode (batchSize : Nat) : OmniPaxosConfig where
  clusterConfig := ⟨1,[1,2,3],none⟩
  serverConfig := {pid:=2,batchSize:=batchSize}

def sampleBuilt (batchSize : Nat) : OmniPaxos Command where
  seqPaxos := .new 2 [1,3] batchSize (.new 2 10000 10000 100 0)
  ble := .new (sampleNode batchSize).bleConfig none
  electionClock := {timeout:=1}

-- A request is proposed, waits for its deadline, is released, appended and acknowledged.
def oneProposal : List Server.Act :=
  [Server.Act.client 1 (.append 0 (.put "x" "1")),.task 0 0,.wait,.wait]++List.replicate 21 (Server.Act.clockTick true)++
  [Server.Act.wait,.task 0 0,.task 0 0]

theorem proposals_survive_single : (sampleNode 1).build {} (.new 2 10000 10000 100 0) = .ok (sampleBuilt 1) ∧
    ∃ s, Reaches (Server.step SipHash.hash) (serverOn (sampleNode 1) 1 (sampleBuilt 1)) oneProposal s ∧
      Runs (Server.step SipHash.hash) (Survives SipHash.hash) (serverOn (sampleNode 1) 1 (sampleBuilt 1)) oneProposal s ∧
      s.seqPaxos.outgoingClients.length = 1 := by
  refine ⟨rfl,?_⟩
  obtain ⟨s,path,queued⟩ := run_reaches (Server.step SipHash.hash) (fun _ _ => True)
    (fun s => s.seqPaxos.outgoingClients.length = 1) (serverOn (sampleNode 1) 1 (sampleBuilt 1)) oneProposal
    (by decide +kernel)
  exact ⟨s,path,(proposals_survive_iff _ _ _ _ _ _ _ _ _ rfl).2.mpr rfl _ _ path,queued⟩

-- With batches of two the first request stays in the batch, and its task panics.
theorem first_proposal_panics : ¬ ∀ (config : OmniPaxosConfig) (master : NodeId) (drift uncertainty : Duration)
    (syncFreq : Nat) (now : SystemTime) (omnipaxos : OmniPaxos Command) (numClients : Nat),
    config.build {} (.new master drift uncertainty syncFreq now) = .ok omnipaxos →
    ∀ actions s, Reaches (Server.step SipHash.hash) (serverOn config numClients omnipaxos) actions s →
      Runs (Server.step SipHash.hash) (Survives SipHash.hash) (serverOn config numClients omnipaxos) actions s := by
  intro survive
  have built : (sampleNode 2).build {} (.new 2 10000 10000 100 0) = .ok (sampleBuilt 2) := rfl
  cases survivors_single built (survive _ _ _ _ _ _ _ 1 built)

end OmniPaxosKV.Batching

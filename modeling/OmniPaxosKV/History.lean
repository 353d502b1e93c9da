import OmniPaxosKV.Transitions

-- What one server's records say: its log grows by one entry for each ack, an
-- ack leaves the server at most once, and every queued request is a proposal.
namespace OmniPaxosKV.History
open Machine Transitions

section Storage
variable {T : Type}

-- All that a change of role leaves alone.
structure SameButRole (s s' : SequencePaxos T) : Prop where
  log : s'.log = s.log
  cache : s'.internalStorage.stateCache = {s.internalStorage.stateCache with promise:=s'.promise}
  trimmed : s'.internalStorage.storage.trimmedIdx = s.internalStorage.storage.trimmedIdx
  queue : s'.queue = s.queue
  tasks : s'.tasks = s.tasks
  outgoing : s'.outgoing = s.outgoing
  outgoingClients : s'.outgoingClients = s.outgoingClients
  pid : s'.pid = s.pid
  history : s'.history = s.history

theorem SameButRole.decidedIdx {s s' : SequencePaxos T} (same : SameButRole s s') : s'.decidedIdx = s.decidedIdx := by
  unfold SequencePaxos.decidedIdx
  rw [same.cache]

theorem sameButRole_handleLeader (s : SequencePaxos T) (n : Ballot)
    (batched : s.internalStorage.stateCache.batchedEntries = []) : SameButRole s (s.handleLeader n) := by
  unfold SequencePaxos.handleLeader
  split
  · exact ⟨rfl,rfl,rfl,rfl,rfl,rfl,rfl,rfl,rfl⟩
  · split
    · refine ⟨?_,?_,rfl,rfl,rfl,rfl,rfl,rfl,rfl⟩
      · change s.log++s.internalStorage.stateCache.batchedEntries = s.log
        rw [batched,List.append_nil]
      · obtain ⟨⟨storage,cache⟩,_⟩ := s
        obtain ⟨size,entries,promise,round,decided,accepted,compacted,stop⟩ := cache
        cases batched
        rfl
    · exact ⟨rfl,rfl,rfl,rfl,rfl,rfl,rfl,rfl,rfl⟩

theorem sameButRole_reconnected (s : SequencePaxos T) (pid : NodeId) : SameButRole s (s.reconnected pid) := by
  unfold SequencePaxos.reconnected
  split
  · exact ⟨rfl,rfl,rfl,rfl,rfl,rfl,rfl,rfl,rfl⟩
  · split <;> exact ⟨rfl,rfl,rfl,rfl,rfl,rfl,rfl,rfl,rfl⟩

variable [Entry T]

-- Nothing is batched, compacted or stopped, and the ack of each entry holds the
-- log as it was with that entry last.
structure Storing (hasher : List UInt8 → UInt64) (s : SequencePaxos T) : Prop where
  batchSize : s.internalStorage.stateCache.batchSize = 1
  batched : s.internalStorage.stateCache.batchedEntries = []
  accepted : s.internalStorage.stateCache.acceptedIdx = s.log.length
  compacted : s.internalStorage.stateCache.compactedIdx = 0
  running : s.internalStorage.stateCache.stopsign = none
  trimmed : s.internalStorage.storage.trimmedIdx = 0
  count : s.history.acked.length = s.log.length
  acked : ∀ (k : Nat) ack snapshot, s.history.acked[k]? = some (ack,snapshot) →
    snapshot = s.log.take (k+1) ∧ ack.acceptedIdx = k+1 ∧ ack.hash = hasher (snapshot.flatMap Entry.hash) ∧
    s.log[k]? = some ack.req

theorem storing_new : Storing hasher (.new pid peers 1 clock : SequencePaxos T) := by
  refine ⟨rfl,rfl,rfl,rfl,rfl,rfl,rfl,?_⟩
  intro k ack snapshot found
  simp [SequencePaxos.new] at found

theorem Storing.congr {s s' : SequencePaxos T} (storing : Storing hasher s) (log : s'.log = s.log)
    (cache : s'.internalStorage.stateCache = {s.internalStorage.stateCache with promise:=promise,decidedIdx:=decidedIdx})
    (trimmed : s'.internalStorage.storage.trimmedIdx = s.internalStorage.storage.trimmedIdx)
    (acked : s'.history.acked = s.history.acked) : Storing hasher s' := by
  obtain ⟨one,two,three,four,five,six,seven,eight⟩ := storing
  constructor <;> simp only [cache,log,trimmed,acked] <;> assumption

-- The ack that appending a request makes.
def ackFor (hasher : List UInt8 → UInt64) (s : SequencePaxos T) (req : T) (speculation : Speculation) : Ack T :=
  ⟨Request.clientId req,req,hasher ((s.log++[req]).flatMap Entry.hash),speculation,s.log.length+1⟩

-- With batches of one entry every append goes through.
theorem appendReleased_eq {s : SequencePaxos T} (storing : Storing hasher s) (req : T) (speculation : Speculation) :
    s.appendReleased hasher req speculation =
      ({s with
        internalStorage:=⟨{s.internalStorage.storage with log:=s.log++[req]},
          {s.internalStorage.stateCache with acceptedIdx:=s.log.length+1}⟩
        history:={s.history with acked:=s.history.acked++[(ackFor hasher s req speculation,s.log++[req])]}},
       .queueAck (ackFor hasher s req speculation)) := by
  have size := storing.batchSize
  have batched := storing.batched
  have accepted := storing.accepted
  obtain ⟨⟨storage,cache⟩,queue,pid,peers,state,outgoing,clients,leader,tasks,history⟩ := s
  obtain ⟨batchSize,entries,promise,round,decided,acceptedIdx,compacted,stop⟩ := cache
  change acceptedIdx = storage.log.length at accepted
  simp only at size batched
  subst size batched accepted
  simp [SequencePaxos.appendReleased,InternalStorage.appendEntriesAndGetAcceptedIdx,StateCache.appendEntries,
    StateCache.takeEntriesIfBatchIsFull,StateCache.takeBatchedEntries,InternalStorage.appendEntriesWithoutBatching,
    Storage.appendEntries,MemoryStorage.appendEntries,MemoryStorage.historyHash,ackFor,SequencePaxos.log]

theorem storing_append {s : SequencePaxos T} (storing : Storing hasher s) (req : T) (speculation : Speculation) :
    Storing hasher (s.appendReleased hasher req speculation).1 := by
  rw [appendReleased_eq storing]
  refine ⟨storing.batchSize,storing.batched,?_,storing.compacted,storing.running,storing.trimmed,?_,?_⟩
  · change s.log.length+1 = (s.log++[req]).length
    rw [List.length_append,List.length_singleton]
  · change (s.history.acked++[_]).length = (s.log++[req]).length
    simp only [List.length_append,List.length_singleton,storing.count]
  · intro k ack snapshot found
    change (s.history.acked++[_])[k]? = _ at found
    change snapshot = (s.log++[req]).take (k+1) ∧ _ ∧ _ ∧ (s.log++[req])[k]? = _
    rcases getElem?_concat_cases found with old | ⟨last,same⟩
    · obtain ⟨taken,idx,hash,entry⟩ := storing.acked k ack snapshot old
      have inside := (List.getElem?_eq_some_iff.mp entry).1
      refine ⟨?_,idx,hash,getElem?_grown (List.prefix_append ..) entry⟩
      rw [List.take_append_of_le_length inside]
      exact taken
    · cases same
      rw [storing.count] at last
      subst k
      refine ⟨?_,rfl,rfl,by simp [ackFor]⟩
      exact (List.take_of_length_le (by simp)).symm

theorem storing_advance {s next : SequencePaxos T} (storing : Storing hasher s) (ran : Advance hasher s task next task') :
    Storing hasher next := by
  cases ran with
  | append released => exact storing_append storing _ _
  | _ => exact storing.congr rfl rfl rfl rfl

end Storage

variable {ack : Ack Command}

theorem storing_step {s next : Server} (storing : Storing hasher s.seqPaxos) (ran : Step hasher s action next) :
    Storing hasher next.seqPaxos := by
  have role : ∀ {s' : SequencePaxos Command}, SameButRole s.seqPaxos s' → Storing hasher s' := by
    intro s' same
    exact storing.congr same.log same.cache same.trimmed (by rw [same.history])
  cases ran with
  | elect _ _ _ _ n => exact role (sameButRole_handleLeader _ n storing.batched)
  | reconnect _ => exact role (sameButRole_reconnected ..)
  | task found advanced => exact (storing_advance storing advanced).congr rfl rfl rfl rfl
  | _ => exact storing.congr rfl rfl rfl rfl

-- An ack on its way: made by a task, queued for the clients, or handed to the connection.
def queues (idx : Nat) : Task Command → Bool
  | .queueAck ack => ack.acceptedIdx == idx
  | _ => false

def sends (idx : Nat) (m : ClientId × ServerMessage) : Bool :=
  match m.2 with
  | .ack _ _ _ lastIdx => lastIdx == idx
  | _ => false

def underWay (s : Server) (idx : Nat) : Nat :=
  s.toClient.countP (sends idx)+s.seqPaxos.outgoingClients.countP (fun ack => ack.acceptedIdx == idx)+
    s.seqPaxos.tasks.countP (queues idx)

abbrev acks (s : Server) : List (Ack Command) := s.seqPaxos.history.acked.map Prod.fst

structure Acking (s : Server) : Prop where
  once : ∀ idx, underWay s idx ≤ 1
  sent : ∀ client cmd hash speculation idx, (client,.ack cmd hash speculation idx) ∈ s.toClient →
    ∃ ack ∈ acks s, ack.req = cmd ∧ ack.hash = hash ∧ ack.speculation = speculation ∧ ack.acceptedIdx = idx
  queued : ∀ ack ∈ s.seqPaxos.outgoingClients, ack ∈ acks s
  made : ∀ ack, Task.queueAck ack ∈ s.seqPaxos.tasks → ack ∈ acks s

theorem acking_new (config : ServerConfig) (now : SystemTime) : Acking (.new config now) := by
  refine ⟨fun idx => Nat.zero_le 1,?_,?_,?_⟩
  · intro client cmd hash speculation idx member; cases member
  · intro ack member; cases member
  · intro ack member; cases member

theorem countP_set (p : α → Bool) {l : List α} (found : l[i]? = some a) (b : α) :
    (l.set i b).countP p+(if p a then 1 else 0) = l.countP p+(if p b then 1 else 0) := by
  obtain ⟨bound,rfl⟩ := List.getElem?_eq_some_iff.mp found
  rw [List.countP_set bound]
  have positive : p l[i] = true → 0 < l.countP p :=
    fun holds => List.countP_pos_iff.mpr ⟨l[i],List.getElem_mem bound,holds⟩
  split
  · have := positive ‹_›
    omega
  · omega

-- Another task, or another message, that is no ack.
theorem underWay_grow (idx : Nat) {s next : Server} (toClient : List (ClientId × ServerMessage))
    (tasks : List (Task Command)) (noAck : ∀ m ∈ toClient, ∀ idx, sends idx m = false)
    (noTask : ∀ t ∈ tasks, ∀ idx, queues idx t = false) (sent : next.toClient = s.toClient++toClient)
    (spawned : next.seqPaxos.tasks = s.seqPaxos.tasks++tasks)
    (queued : next.seqPaxos.outgoingClients = s.seqPaxos.outgoingClients) : underWay next idx = underWay s idx := by
  have silent : toClient.countP (sends idx) = 0 :=
    List.countP_eq_zero.mpr fun m member => by simp [noAck m member idx]
  have quiet : tasks.countP (queues idx) = 0 :=
    List.countP_eq_zero.mpr fun t member => by simp [noTask t member idx]
  simp only [underWay,sent,spawned,queued,List.countP_append,silent,quiet,Nat.add_zero]

theorem underWay_send (idx : Nat) (s : Server) : underWay s.sendOutgoingMsgs idx = underWay s idx := by
  have counted : (s.seqPaxos.outgoingClients.map fun a => ((1 : ClientId),
      ServerMessage.ack a.req a.hash a.speculation a.acceptedIdx)).countP (sends idx) =
      s.seqPaxos.outgoingClients.countP (fun ack => ack.acceptedIdx == idx) := by
    rw [List.countP_map]
    rfl
  unfold underWay
  change (s.toClient++s.seqPaxos.outgoingClients.map _).countP (sends idx)+0+s.seqPaxos.tasks.countP (queues idx) = _
  rw [List.countP_append,counted,Nat.add_zero]

-- A task whose step makes no ack and sends none.
theorem underWay_move (idx : Nat) {s next : Server} (found : s.seqPaxos.tasks[place]? = some task)
    (before : queues idx task = false) (after : queues idx task' = false) (sent : next.toClient = s.toClient)
    (tasks : next.seqPaxos.tasks = s.seqPaxos.tasks.set place task')
    (queued : next.seqPaxos.outgoingClients = s.seqPaxos.outgoingClients) : underWay next idx = underWay s idx := by
  have moved := countP_set (queues idx) found task'
  simp only [before,after,Bool.false_eq_true,if_false,Nat.add_zero] at moved
  simp only [underWay,sent,tasks,queued,moved]

theorem underWay_append (idx : Nat) {s next : Server} (found : s.seqPaxos.tasks[place]? = some task)
    (before : queues idx task = false) (sent : next.toClient = s.toClient)
    (tasks : next.seqPaxos.tasks = s.seqPaxos.tasks.set place (.queueAck ack))
    (queued : next.seqPaxos.outgoingClients = s.seqPaxos.outgoingClients) :
    underWay next idx = underWay s idx+if idx = ack.acceptedIdx then 1 else 0 := by
  have moved := countP_set (queues idx) found (.queueAck ack)
  simp only [before,Bool.false_eq_true,if_false,Nat.add_zero] at moved
  simp only [underWay,sent,tasks,queued,moved,queues,beq_iff_eq,eq_comm (b := idx),Nat.add_assoc]

theorem underWay_queueAck (idx : Nat) {s next : Server} (found : s.seqPaxos.tasks[place]? = some (.queueAck ack))
    (sent : next.toClient = s.toClient) (tasks : next.seqPaxos.tasks = s.seqPaxos.tasks.set place .finished)
    (queued : next.seqPaxos.outgoingClients = s.seqPaxos.outgoingClients++[ack]) : underWay next idx = underWay s idx := by
  have moved := countP_set (queues idx) found .finished
  simp only [queues,Bool.false_eq_true,if_false,Nat.add_zero] at moved
  simp only [underWay,sent,tasks,queued,List.countP_append,List.countP_singleton]
  rw [←moved]
  ac_rfl

theorem background_queues (idle : background task = true) (idx : Nat) : queues idx task = false := by
  cases task <;> first | rfl | cases idle

theorem sends_signal {messages : List (ClientId × ServerMessage)} (signals : ∀ m ∈ messages, ∃ t, m.2 = .startSignal t) :
    ∀ m ∈ messages, ∀ idx, sends idx m = false := by
  intro m member idx
  obtain ⟨t,same⟩ := signals m member
  rw [sends,same]

theorem sends_answer {messages : List (ClientId × ServerMessage)} (answers : ∀ m ∈ messages, answer m.2 = true) :
    ∀ m ∈ messages, ∀ idx, sends idx m = false := by
  intro message member idx
  obtain ⟨client,m⟩ := message
  have answered := answers _ member
  cases m <;> first | rfl | cases answered

-- Only an append puts an ack under way, under the index of the entry it makes.
theorem underWay_step {s next : Server} (storing : Storing hasher s.seqPaxos) (ran : Step hasher s action next) (idx : Nat) :
    underWay next idx = underWay s idx+if s.log.length < next.log.length ∧ idx = next.log.length then 1 else 0 := by
  have still : ∀ {next : Server}, underWay next idx = underWay s idx → next.log = s.log →
      underWay next idx = underWay s idx+if s.log.length < next.log.length ∧ idx = next.log.length then 1 else 0 := by
    intro next same log
    simp [same,log]
  have role : ∀ {next : Server}, next.toClient = s.toClient → SameButRole s.seqPaxos next.seqPaxos →
      underWay next idx = underWay s idx+if s.log.length < next.log.length ∧ idx = next.log.length then 1 else 0 := by
    intro next sent same
    refine still ?_ same.log
    exact underWay_grow idx [] [] (by simp) (by simp) (sent.trans (List.append_nil _).symm)
      (same.tasks.trans (List.append_nil _).symm) same.outgoingClients
  cases ran with
  | elect _ _ _ _ n => exact role rfl (sameButRole_handleLeader _ n storing.batched)
  | reconnect _ => exact role rfl (sameButRole_reconnected ..)
  | send _ => exact still (underWay_send idx s) rfl
  | signal _ _ clients _ =>
    exact still (underWay_grow idx _ [] (sends_signal clients) (by simp) rfl (List.append_nil _).symm rfl) rfl
  | replay _ _ _ answers =>
    exact still (underWay_grow idx _ [] (sends_answer answers) (by simp) rfl (List.append_nil _).symm rfl) rfl
  | synchronize _ idle =>
    refine still ?_ rfl
    exact underWay_grow idx [] [_] (by simp) (by simpa using background_queues idle) (List.append_nil _).symm rfl rfl
  | speculate | propose | confirm | newDeadline | clockSync =>
    exact still (underWay_grow idx [] [_] (by simp) (by simp [queues]) (List.append_nil _).symm rfl rfl) rfl
  | task found advanced =>
    cases advanced with
    | append released =>
      rename_i req _ _ _
      rw [appendReleased_eq storing]
      refine Eq.trans (underWay_append idx found rfl rfl rfl rfl) ?_
      have longer : s.log.length < (s.log++[req]).length ∧ idx = (s.log++[req]).length ↔ idx = s.log.length+1 := by simp
      exact congrArg (underWay s idx+·) (if_congr longer.symm rfl rfl)
    | queueAck => exact still (underWay_queueAck idx found rfl rfl rfl) rfl
    | background before after =>
      exact still (underWay_move idx found (background_queues before idx) (background_queues after idx) rfl rfl rfl) rfl
    | _ => exact still (underWay_move idx found rfl rfl rfl rfl rfl) rfl
  | _ => exact still (underWay_grow idx [] [] (by simp) (by simp) (List.append_nil _).symm (List.append_nil _).symm rfl) rfl

-- An acked index is an index of the log.
theorem acks_bound {s : Server} (storing : Storing hasher s.seqPaxos) (member : ack ∈ acks s) :
    ack.acceptedIdx ≤ s.log.length := by
  obtain ⟨⟨_,snapshot⟩,present,rfl⟩ := List.mem_map.mp member
  obtain ⟨k,found⟩ := List.mem_iff_getElem?.mp present
  obtain ⟨_,idx,_,entry⟩ := storing.acked k _ _ found
  have bound := (List.getElem?_eq_some_iff.mp entry).1
  rw [idx]
  exact bound

theorem underWay_fresh {s : Server} (storing : Storing hasher s.seqPaxos) (acking : Acking s)
    (beyond : s.log.length < idx) : underWay s idx = 0 := by
  unfold underWay
  rw [Nat.add_eq_zero_iff,Nat.add_eq_zero_iff,List.countP_eq_zero,List.countP_eq_zero,List.countP_eq_zero]
  have far : ∀ ack ∈ acks s, ¬ (ack.acceptedIdx == idx) = true := by
    intro ack member same
    have bound := acks_bound storing member
    rw [beq_iff_eq.mp same] at bound
    exact Nat.not_lt.mpr bound beyond
  refine ⟨⟨?_,fun ack member => far ack (acking.queued ack member)⟩,?_⟩
  · intro message member holds
    obtain ⟨client,m⟩ := message
    cases m with
    | ack cmd hash speculation lastIdx =>
      obtain ⟨ack,present,_,_,_,same⟩ := acking.sent _ _ _ _ _ member
      exact far ack present (by simpa [sends,same] using holds)
    | _ => cases holds
  · intro task member holds
    cases task with
    | queueAck ack => exact far ack (acking.made ack member) holds
    | _ => cases holds

theorem once_step {s next : Server} (storing : Storing hasher s.seqPaxos) (acking : Acking s)
    (ran : Step hasher s action next) (idx : Nat) : underWay next idx ≤ 1 := by
  rw [underWay_step storing ran]
  split
  · rename_i new
    rw [underWay_fresh storing acking (new.2 ▸ new.1)]
  · exact acking.once idx

-- Another task, or another message, that is no ack.
theorem Acking.grow {s next : Server} (acking : Acking s) (once : ∀ idx, underWay next idx ≤ 1)
    (toClient : List (ClientId × ServerMessage)) (tasks : List (Task Command))
    (noAck : ∀ m ∈ toClient, ∀ idx, sends idx m = false) (noTask : ∀ t ∈ tasks, ∀ idx, queues idx t = false)
    (sent : next.toClient = s.toClient++toClient) (spawned : next.seqPaxos.tasks = s.seqPaxos.tasks++tasks)
    (queued : next.seqPaxos.outgoingClients = s.seqPaxos.outgoingClients)
    (acked : next.seqPaxos.history.acked = s.seqPaxos.history.acked) : Acking next := by
  have same : acks next = acks s := by rw [acks,acked]
  refine ⟨once,?_,?_,?_⟩
  · intro client cmd hash speculation idx member
    rw [sent] at member
    rw [same]
    rcases List.mem_append.mp member with old | new
    · exact acking.sent client cmd hash speculation idx old
    · have none := noAck _ new idx
      simp [sends] at none
  · rw [queued,same]
    exact acking.queued
  · intro ack member
    rw [spawned] at member
    rw [same]
    rcases List.mem_append.mp member with old | new
    · exact acking.made ack old
    · have none := noTask _ new ack.acceptedIdx
      simp [queues] at none

-- A task whose step makes no ack and sends none.
theorem Acking.move {s next : Server} (acking : Acking s) (once : ∀ idx, underWay next idx ≤ 1)
    (after : ∀ idx, queues idx task' = false) (sent : next.toClient = s.toClient)
    (tasks : next.seqPaxos.tasks = s.seqPaxos.tasks.set place task')
    (queued : next.seqPaxos.outgoingClients = s.seqPaxos.outgoingClients)
    (acked : next.seqPaxos.history.acked = s.seqPaxos.history.acked) : Acking next := by
  have same : acks next = acks s := by rw [acks,acked]
  refine ⟨once,?_,?_,?_⟩
  · rw [sent,same]
    exact acking.sent
  · rw [queued,same]
    exact acking.queued
  · intro ack member
    rw [tasks] at member
    rw [same]
    rcases List.mem_or_eq_of_mem_set member with old | new
    · exact acking.made ack old
    · have none := after ack.acceptedIdx
      rw [←new] at none
      simp [queues] at none

theorem acking_send {s : Server} (acking : Acking s) (once : ∀ idx, underWay s.sendOutgoingMsgs idx ≤ 1) :
    Acking s.sendOutgoingMsgs := by
  refine ⟨once,?_,?_,acking.made⟩
  · intro client cmd hash speculation idx member
    change _ ∈ s.toClient++s.seqPaxos.outgoingClients.map _ at member
    rcases List.mem_append.mp member with old | new
    · exact acking.sent client cmd hash speculation idx old
    · obtain ⟨ack,present,same⟩ := List.mem_map.mp new
      cases same
      exact ⟨ack,acking.queued ack present,rfl,rfl,rfl,rfl⟩
  · intro ack member
    cases member

theorem acking_append {s next : Server} (acking : Acking s) (once : ∀ idx, underWay next idx ≤ 1)
    (sent : next.toClient = s.toClient) (tasks : next.seqPaxos.tasks = s.seqPaxos.tasks.set place (.queueAck ack))
    (queued : next.seqPaxos.outgoingClients = s.seqPaxos.outgoingClients)
    (acked : next.seqPaxos.history.acked = s.seqPaxos.history.acked++[(ack,snapshot)]) : Acking next := by
  have more : acks next = acks s++[ack] := by rw [acks,acked,List.map_append]; rfl
  refine ⟨once,?_,?_,?_⟩
  · intro client cmd hash speculation idx member
    rw [sent] at member
    obtain ⟨ack',present,facts⟩ := acking.sent client cmd hash speculation idx member
    exact ⟨ack',more ▸ List.mem_append_left _ present,facts⟩
  · intro ack' member
    rw [queued] at member
    exact more ▸ List.mem_append_left _ (acking.queued ack' member)
  · intro ack' member
    rw [tasks] at member
    rw [more]
    rcases List.mem_or_eq_of_mem_set member with old | new
    · exact List.mem_append_left _ (acking.made ack' old)
    · cases new
      exact List.mem_append_right _ (List.mem_singleton_self _)

theorem acking_queueAck {s next : Server} (acking : Acking s) (once : ∀ idx, underWay next idx ≤ 1)
    (found : s.seqPaxos.tasks[place]? = some (.queueAck ack)) (sent : next.toClient = s.toClient)
    (tasks : next.seqPaxos.tasks = s.seqPaxos.tasks.set place .finished)
    (queued : next.seqPaxos.outgoingClients = s.seqPaxos.outgoingClients++[ack])
    (acked : next.seqPaxos.history.acked = s.seqPaxos.history.acked) : Acking next := by
  have same : acks next = acks s := by rw [acks,acked]
  refine ⟨once,by rw [sent,same]; exact acking.sent,?_,?_⟩
  · intro ack' member
    rw [queued] at member
    rw [same]
    rcases List.mem_append.mp member with old | new
    · exact acking.queued ack' old
    · cases List.mem_singleton.mp new
      exact acking.made ack (List.mem_of_getElem? found)
  · intro ack' member
    rw [tasks] at member
    rw [same]
    rcases List.mem_or_eq_of_mem_set member with old | new
    · exact acking.made ack' old
    · cases new

theorem acking_step {s next : Server} (storing : Storing hasher s.seqPaxos) (acking : Acking s)
    (ran : Step hasher s action next) : Acking next := by
  have once := once_step storing acking ran
  have role : ∀ {next : Server}, (∀ idx, underWay next idx ≤ 1) → next.toClient = s.toClient →
      SameButRole s.seqPaxos next.seqPaxos → Acking next := by
    intro next once sent same
    exact acking.grow once [] [] (by simp) (by simp) (sent.trans (List.append_nil _).symm)
      (same.tasks.trans (List.append_nil _).symm) same.outgoingClients (congrArg PaxosHistory.acked same.history)
  cases ran with
  | elect _ _ _ _ n => exact role once rfl (sameButRole_handleLeader _ n storing.batched)
  | reconnect _ => exact role once rfl (sameButRole_reconnected ..)
  | send _ => exact acking_send acking once
  | signal _ _ clients _ =>
    exact acking.grow once _ [] (sends_signal clients) (by simp) rfl (List.append_nil _).symm rfl rfl
  | replay _ _ _ answers =>
    exact acking.grow once _ [] (sends_answer answers) (by simp) rfl (List.append_nil _).symm rfl rfl
  | synchronize _ idle =>
    exact acking.grow once [] [_] (by simp) (by simpa using background_queues idle) (List.append_nil _).symm rfl rfl rfl
  | speculate | propose | confirm | newDeadline | clockSync =>
    exact acking.grow once [] [_] (by simp) (by simp [queues]) (List.append_nil _).symm rfl rfl rfl
  | task found advanced =>
    cases advanced with
    | append released =>
      rw [appendReleased_eq storing] at once ⊢
      exact acking_append acking once rfl rfl rfl rfl
    | queueAck => exact acking_queueAck acking once found rfl rfl rfl rfl
    | background _ after => exact acking.move once (background_queues after) rfl rfl rfl rfl
    | _ => exact acking.move once (fun _ => rfl) rfl rfl rfl rfl
  | _ => exact acking.grow once [] [] (by simp) (by simp) (List.append_nil _).symm (List.append_nil _).symm rfl rfl

-- Records that are only ever added to.
structure Grows (s next : Server) : Prop where
  toClient : s.toClient <+: next.toClient
  log : s.log <+: next.log
  acked : s.seqPaxos.history.acked <+: next.seqPaxos.history.acked
  proposed : s.proposed <+: next.proposed

theorem step_grows {s next : Server} (storing : Storing hasher s.seqPaxos) (ran : Step hasher s action next) :
    Grows s next := by
  have whole : ∀ {α} (l : List α), l <+: l := fun l => List.prefix_refl l
  have more : ∀ {α} (l m : List α), l <+: l++m := fun l m => List.prefix_append l m
  have role : ∀ {s' : SequencePaxos Command}, SameButRole s.seqPaxos s' → s.log <+: s'.log ∧
      s.seqPaxos.history.acked <+: s'.history.acked := by
    intro s' same
    rw [same.log,same.history]
    exact ⟨whole _,whole _⟩
  cases ran with
  | elect _ _ _ _ n =>
    obtain ⟨log,acked⟩ := role (sameButRole_handleLeader _ n storing.batched)
    exact ⟨whole _,log,acked,whole _⟩
  | reconnect _ =>
    obtain ⟨log,acked⟩ := role (sameButRole_reconnected ..)
    exact ⟨whole _,log,acked,whole _⟩
  | speculate | propose => exact ⟨whole _,whole _,whole _,more ..⟩
  | signal | replay | send => exact ⟨more ..,whole _,whole _,whole _⟩
  | task found advanced =>
    cases advanced with
    | append released =>
      rw [appendReleased_eq storing]
      exact ⟨whole _,more ..,more ..,whole _⟩
    | _ => exact ⟨whole _,whole _,whole _,whole _⟩
  | _ => exact ⟨whole _,whole _,whole _,whole _⟩

-- A server tells its peers about deadlines, clocks and heartbeats, never about confirms.
structure Silent (s : Server) : Prop where
  outgoing : ∀ m ∈ s.seqPaxos.outgoing, Server.confirmIn (.omniPaxosMessage m) = none
  toCluster : ∀ entry ∈ s.toCluster, Server.confirmIn entry.2 = none

theorem silent_new (config : ServerConfig) (now : SystemTime) : Silent (.new config now) := by
  refine ⟨?_,?_⟩
  · intro m member; cases member
  · intro entry member; cases member

theorem confirmIn_sync (quiet : sync m = true) : Server.confirmIn (.omniPaxosMessage m) = none := by
  unfold sync at quiet
  split at quiet
  · rfl
  · rfl
  · cases quiet

theorem silent_advance {s : Server} (silent : Silent s) (storing : Storing hasher s.seqPaxos)
    (ran : Advance hasher s.seqPaxos task next task') :
    Silent (s.withPaxos {next with tasks:=tasks}) := by
  refine ⟨?_,silent.toCluster⟩
  change ∀ m ∈ next.outgoing, _
  cases ran with
  | announce =>
    intro m member
    rcases List.mem_append.mp member with old | new
    · exact silent.outgoing m old
    · obtain ⟨peer,_,rfl⟩ := List.mem_map.mp new
      rfl
  | background _ _ clock extra syncs =>
    intro m member
    rcases List.mem_append.mp member with old | new
    · exact silent.outgoing m old
    · exact confirmIn_sync (syncs m new)
  | append released =>
    rw [appendReleased_eq storing]
    exact silent.outgoing
  | _ => exact silent.outgoing

theorem silent_step {s next : Server} (storing : Storing hasher s.seqPaxos) (silent : Silent s)
    (ran : Step hasher s action next) : Silent next := by
  cases ran with
  | elect _ _ _ _ n =>
    exact ⟨by rw [(sameButRole_handleLeader s.seqPaxos n storing.batched).outgoing]; exact silent.outgoing,silent.toCluster⟩
  | reconnect _ =>
    refine ⟨?_,silent.toCluster⟩
    change ∀ m ∈ (s.seqPaxos.reconnected _).outgoing, _
    rw [(sameButRole_reconnected ..).outgoing]
    exact silent.outgoing
  | signal _ _ _ peers =>
    refine ⟨silent.outgoing,?_⟩
    intro entry member
    rcases List.mem_append.mp member with old | new
    · exact silent.toCluster entry old
    · obtain ⟨t,same⟩ := peers entry new
      rw [same]
      rfl
  | send _ =>
    refine ⟨fun m member => (List.not_mem_nil member).elim,?_⟩
    intro entry member
    rcases List.mem_append.mp member with old | new
    · exact silent.toCluster entry old
    · obtain ⟨m,present,rfl⟩ := List.mem_map.mp new
      rcases List.mem_append.mp present with own | other
      · exact silent.outgoing m own
      · obtain ⟨b,_,rfl⟩ := List.mem_map.mp other
        rfl
  | task found advanced => exact silent_advance silent storing advanced
  | _ => exact ⟨silent.outgoing,silent.toCluster⟩

-- The decided index is only ever set by a task, and the task is only ever made by a confirm.
theorem step_decided {s next : Server} (storing : Storing hasher s.seqPaxos) (ran : Step hasher s action next) :
    (next.decidedIdx = s.decidedIdx ∨ Task.setDecidedIdx next.decidedIdx ∈ s.seqPaxos.tasks) ∧
    ∀ idx, Task.setDecidedIdx idx ∈ next.seqPaxos.tasks →
      Task.setDecidedIdx idx ∈ s.seqPaxos.tasks ∨ ∃ command, action.confirms = some (command,idx) := by
  have spawned : ∀ {task : Task Command} {idx}, Task.setDecidedIdx idx ∈ s.seqPaxos.tasks++[task] →
      Task.setDecidedIdx idx ∈ s.seqPaxos.tasks ∨ Task.setDecidedIdx idx = task := by
    intro task idx member
    rcases List.mem_append.mp member with old | new
    · exact .inl old
    · exact .inr (List.mem_singleton.mp new)
  have role : ∀ {s' : SequencePaxos Command}, SameButRole s.seqPaxos s' → (s'.decidedIdx = s.decidedIdx ∨
      Task.setDecidedIdx s'.decidedIdx ∈ s.seqPaxos.tasks) ∧ ∀ idx, Task.setDecidedIdx idx ∈ s'.tasks →
        Task.setDecidedIdx idx ∈ s.seqPaxos.tasks ∨ ∃ command, action.confirms = some (command,idx) := by
    intro s' same
    exact ⟨.inl same.decidedIdx,fun idx member => .inl (same.tasks ▸ member)⟩
  cases ran with
  | elect _ _ _ _ n => exact role (sameButRole_handleLeader _ n storing.batched)
  | reconnect _ => exact role (sameButRole_reconnected ..)
  | confirm _ carried =>
    refine ⟨.inl rfl,?_⟩
    intro idx member
    rcases spawned member with old | new
    · exact .inl old
    · cases new
      exact .inr ⟨_,carried⟩
  | synchronize _ idle =>
    refine ⟨.inl rfl,?_⟩
    intro idx member
    rcases spawned member with old | new
    · exact .inl old
    · subst new
      cases idle
  | speculate | propose | newDeadline | clockSync =>
    refine ⟨.inl rfl,?_⟩
    intro idx member
    exact .inl ((spawned member).resolve_right nofun)
  | task found advanced =>
    have set : ∀ {place} {task' : Task Command} {idx}, Task.setDecidedIdx idx ∈ s.seqPaxos.tasks.set place task' →
        task' ≠ .setDecidedIdx idx → Task.setDecidedIdx idx ∈ s.seqPaxos.tasks :=
      fun member distinct => (List.mem_or_eq_of_mem_set member).resolve_right (fun same => distinct same.symm)
    cases advanced with
    | setDecidedIdx =>
      exact ⟨.inr (List.mem_of_getElem? found),fun idx member => .inl (set member nofun)⟩
    | append released =>
      rw [appendReleased_eq storing]
      exact ⟨.inl rfl,fun idx member => .inl (set member nofun)⟩
    | background _ after clock extra syncs =>
      refine ⟨.inl rfl,fun idx member => .inl (set member ?_)⟩
      intro equal
      subst equal
      cases after
    | _ => exact ⟨.inl rfl,fun idx member => .inl (set member nofun)⟩
  | _ => exact ⟨.inl rfl,fun idx member => .inl member⟩

-- The replica has answered a proposal speculatively.
def HasLed (s : Server) : Prop := ∃ p ∈ s.proposed, p.speculation.isSome = true

instance (s : Server) : Decidable (HasLed s) :=
  inferInstanceAs (Decidable (∃ p ∈ s.proposed, p.speculation.isSome = true))

theorem step_hasLed {s next : Server} (ran : Step hasher s action next) (led : HasLed next) :
    HasLed s ∨ (s.role = .leader ∧ ∃ sender commandId kv, action = .client sender (.append commandId kv)) := by
  cases ran with
  | speculate _ leads => exact .inr ⟨leads,_,_,_,rfl⟩
  | propose _ _ =>
    obtain ⟨p,member,answered⟩ := led
    rcases List.mem_append.mp member with old | new
    · exact .inl ⟨p,old,answered⟩
    · cases List.mem_singleton.mp new
      cases answered
  | _ => exact .inl led

end OmniPaxosKV.History

import OmniPaxosKV.Buffers
import OmniPaxosKV.Election

namespace OmniPaxosKV

-- Whether the replica speculated, whether the command answers at all, and the answer.
abbrev Speculation := Option (Option (Option String))

inductive PaxosMsg (T : Type) where
  | ack (req : T) (hash : UInt64) (speculation : Speculation) (acceptedIdx : Nat)
  | confirm (entry : T) (acceptedIdx : Nat)
  | newDeadline (entryId : Nat) (newDeadline : SystemTime)
  | syncReq
  | syncAnswer (t : SystemTime)
  deriving DecidableEq, Repr

structure PaxosMessage (T : Type) where
  sender : NodeId
  receiver : NodeId
  msg : PaxosMsg T
  deriving DecidableEq, Repr

inductive Message (T : Type) where
  | sequencePaxos (m : PaxosMessage T)
  | ble (m : BLEMessage)
  deriving DecidableEq, Repr

-- The one message that is ever queued for a client.
structure Ack (T : Type) where
  client : ClientId
  req : T
  hash : UInt64
  speculation : Speculation
  acceptedIdx : Nat
  deriving DecidableEq, Repr

-- A spawned task at its next atomic step. The proposal task goes through
-- `insert`, `announce`, `awaitRelease` and `queueAck`; the sync task through
-- `syncStart`, `syncWait` and `resync`. `sender` in `freeFromLate` is kept for
-- the record: the closure captures the id and the deadline only.
inductive Task (T : Type) where
  | setDecidedIdx (acceptedIdx : Nat)
  | freeFromLate (sender : NodeId) (id : Nat) (newDeadline : SystemTime)
  | sendMasterTime (t : SystemTime)
  | answerSync (sender : NodeId)
  | insert (entry : T) (imLeader : Bool) (speculation : Speculation)
  | announce (entryId : Nat) (newDeadline : SystemTime) (notifier : Channel) (speculation : Speculation)
  | awaitRelease (entryId : Nat) (notifier : Channel) (speculation : Speculation)
  | queueAck (ack : Ack T)
  | syncStart
  | syncWait (t0 : SystemTime)
  | resync (corrected : SystemTime)
  | finished
  | panicked

-- What the records of a run remember of one replica, beside its state: the
-- acks it made with the log they were made from, the deadlines it announced as
-- leader, and the requests a peer's announcement moved out of its late buffer.
structure PaxosHistory (T : Type) where
  acked : List (Ack T × List T) := []
  announced : List (Nat × SystemTime) := []
  freed : List (NodeId × SystemTime × T) := []

structure SequencePaxos (T : Type) where
  internalStorage : InternalStorage (MemoryStorage T Unit) T
  queue : Queue T
  pid : NodeId
  peers : List NodeId
  state : Role × Phase
  outgoing : List (Message T) := []
  outgoingClients : List (Ack T) := []
  nLeader : Ballot := {}
  tasks : List (Task T) := []
  history : PaxosHistory T := {}

namespace SequencePaxos
variable {T : Type}

abbrev log (s : SequencePaxos T) : List T := s.internalStorage.storage.log
abbrev decidedIdx (s : SequencePaxos T) : Nat := s.internalStorage.stateCache.decidedIdx
abbrev promise (s : SequencePaxos T) : Ballot := s.internalStorage.stateCache.promise
abbrev role (s : SequencePaxos T) : Role := s.state.1

-- A replica over fresh memory storage: no promise to recover from.
def new (pid : NodeId) (peers : List NodeId) (batchSize : Nat) (clock : ClockState) : SequencePaxos T where
  internalStorage := ⟨{nProm:=some {}},{batchSize:=batchSize}⟩
  queue := {clock:=clock}
  pid := pid
  peers := peers
  state := (.follower,.none)

def spawn (s : SequencePaxos T) (task : Task T) : SequencePaxos T := {s with tasks:=s.tasks++[task]}

-- `execute` and `speculate` are the closures over the server's database `D`.
def handleExecution (s : SequencePaxos T) (entry : T) (acceptedIdx : Nat)
    (execute : T → D → Option (Option String) × D) (d : D) : SequencePaxos T × D :=
  (s.spawn (.setDecidedIdx acceptedIdx),if s.role = .follower then (execute entry d).2 else d)

def handle (s : SequencePaxos T) (m : PaxosMessage T) (execute : T → D → Option (Option String) × D)
    (d : D) : SequencePaxos T × D :=
  match m.msg with
  | .ack .. => (s,d)
  | .confirm entry acceptedIdx => s.handleExecution entry acceptedIdx execute d
  | .newDeadline entryId newDeadline => (s.spawn (.freeFromLate m.sender entryId newDeadline),d)
  | .syncAnswer t => (s.spawn (.sendMasterTime t),d)
  | .syncReq => (s.spawn (.answerSync m.sender),d)

def handleNewProposal (s : SequencePaxos T) (entry : T) (imLeader : Bool)
    (speculate : T → D → Option (Option String) × D) (d : D) : SequencePaxos T × D :=
  if imLeader then
    let (result,d) := speculate entry d
    (s.spawn (.insert entry imLeader (some result)),d)
  else (s.spawn (.insert entry imLeader none),d)

def proposeEntry (s : SequencePaxos T) (entry : T) (speculate : T → D → Option (Option String) × D)
    (d : D) : SequencePaxos T × D :=
  match s.role with
  | .follower => s.handleNewProposal entry false speculate d
  | .leader => s.handleNewProposal entry true speculate d

-- Refused once a stop-sign has been accepted.
def append (s : SequencePaxos T) (entry : T) (speculate : T → D → Option (Option String) × D)
    (d : D) : Option (SequencePaxos T × D) :=
  if s.internalStorage.stateCache.stopsign.isSome then none else some (s.proposeEntry entry speculate d)

-- Storage calls on memory never fail, so `expect` never fires here.
def handleLeader (s : SequencePaxos T) (n : Ballot) : SequencePaxos T :=
  if n ≤ s.nLeader ∨ n ≤ s.promise then s
  else if s.pid = n.pid then
    let flushed := (InternalStorage.flushBatch s.internalStorage).2
    {s with nLeader:=n,internalStorage:=(InternalStorage.setPromise n flushed).2,state:=(.leader,.prepare)}
  else {s with state:=(.follower,s.state.2)}

def reconnected (s : SequencePaxos T) (pid : NodeId) : SequencePaxos T :=
  if pid = s.pid then s
  else if pid = s.promise.pid then {s with state:=(.follower,.recover)}
  else s

def takeOutgoingMsgs (s : SequencePaxos T) : List (Message T) × SequencePaxos T :=
  (s.outgoing,{s with outgoing:=[]})

def takeOutgoingClientMsgs (s : SequencePaxos T) : List (Ack T) × SequencePaxos T :=
  (s.outgoingClients,{s with outgoingClients:=[]})

variable [Entry T] (hasher : List UInt8 → UInt64)

def wait (s : SequencePaxos T) : Option (SequencePaxos T) :=
  s.queue.wait.map fun queue => {s with queue:=queue}

-- The clock's loop; a due sync runs as a task of its own.
def clockTick (s : SequencePaxos T) (fast : Bool) : SequencePaxos T :=
  let (queue,doSync) := s.queue.tick fast
  let s := {s with queue:=queue}
  if doSync then s.spawn .syncStart else s

-- The locked section of the proposal task: append, index and hash together.
def appendReleased (s : SequencePaxos T) (req : T) (speculation : Speculation) : SequencePaxos T × Task T :=
  match InternalStorage.appendEntriesAndGetAcceptedIdx [req] s.internalStorage with
  | (.ok (some idx),storage) =>
    let ack := ⟨Request.clientId req,req,storage.storage.historyHash hasher,speculation,idx⟩
    ({s with internalStorage:=storage,
             history:={s.history with acked:=s.history.acked++[(ack,storage.storage.log)]}},.queueAck ack)
  | (_,storage) => ({s with internalStorage:=storage},.panicked)

-- One atomic step of a task, and where it stands after it; none while it is
-- blocked. `now` is what the system clock answers.
def advance (s : SequencePaxos T) (now : SystemTime) : Task T → Option (SequencePaxos T × Task T)
  | .setDecidedIdx idx =>
    some ({s with internalStorage:=(InternalStorage.setDecidedIdx idx s.internalStorage).2},.finished)
  | .freeFromLate sender id newDeadline =>
    let freed := match s.queue.buffers.late id with
      | none => []
      | some r => [(sender,newDeadline,r)]
    some ({s with queue:=s.queue.freeFromLate id newDeadline,
                  history:={s.history with freed:=s.history.freed++freed}},.finished)
  | .sendMasterTime t =>
    let clock := s.queue.clock
    if clock.masterTime.length < 100 then
      some ({s with queue:={s.queue with clock:={clock with masterTime:=clock.masterTime++[t]}}},.finished)
    else none
  | .answerSync sender =>
    some ({s with outgoing:=s.outgoing++[.sequencePaxos ⟨1,sender,.syncAnswer s.queue.clock.logicalTime⟩]},.finished)
  | .insert entry imLeader speculation =>
    let entryId := Request.getId entry
    match s.queue.insert entry imLeader with
    | (queue,notifier,none) => some ({s with queue:=queue},.awaitRelease entryId notifier speculation)
    | (queue,notifier,some newDeadline) =>
      some ({s with queue:=queue},.announce entryId newDeadline notifier speculation)
  | .announce entryId newDeadline notifier speculation =>
    some ({s with
        outgoing:=s.outgoing++s.peers.map fun peer => .sequencePaxos ⟨s.pid,peer,.newDeadline entryId newDeadline⟩
        history:={s.history with announced:=s.history.announced++[(entryId,newDeadline)]}},
      .awaitRelease entryId notifier speculation)
  | .awaitRelease _ notifier speculation =>
    match s.queue.released.lookup notifier with
    | some req => some (s.appendReleased hasher req speculation)
    | none => if notifier ∈ s.queue.dropped then some (s,.finished) else none
  | .queueAck ack => some ({s with outgoingClients:=s.outgoingClients++[ack]},.finished)
  | .syncStart =>
    let master := s.queue.clock.master
    if master = 1 then some (s,.syncWait now)
    else some ({s with outgoing:=s.outgoing++[.sequencePaxos ⟨master,1,.syncReq⟩]},.syncWait now)
  | .syncWait t0 =>
    let clock := s.queue.clock
    let corrected := fun leaderTime => if t0 ≤ now then Task.resync (leaderTime+(now-t0)/2) else .panicked
    if clock.master = 1 then some (s,corrected clock.logicalTime)
    else match clock.masterTime with
      | [] => none
      | t::rest => some ({s with queue:={s.queue with clock:={clock with masterTime:=rest}}},corrected t)
  | .resync corrected => some ({s with queue:=s.queue.resync corrected},.finished)
  | .finished => none
  | .panicked => none

-- Tasks keep their place in spawning order, so a schedule can name them.
def runTask (s : SequencePaxos T) (place : Nat) (now : SystemTime) : Option (SequencePaxos T) :=
  match s.tasks[place]? with
  | none => none
  | some task => match s.advance hasher now task with
    | none => none
    | some (s,task) => some {s with tasks:=s.tasks.set place task}

end SequencePaxos
end OmniPaxosKV

import OmniPaxosKV.SequencePaxos

namespace OmniPaxosKV

structure LogicalClock where
  time : Nat := 0
  timeout : Nat

def LogicalClock.tickAndCheckTimeout (c : LogicalClock) : Bool × LogicalClock :=
  if c.time+1 = c.timeout then (true,{c with time:=0}) else (false,{c with time:=c.time+1})

structure OmniPaxos (T : Type) where
  seqPaxos : SequencePaxos T
  ble : BallotLeaderElection
  electionClock : LogicalClock

namespace OmniPaxos

def handleIncoming (s : OmniPaxos T) (m : Message T) (execute : T → D → Option (Option String) × D)
    (d : D) : OmniPaxos T × D :=
  match m with
  | .sequencePaxos p =>
    let (seqPaxos,d) := s.seqPaxos.handle p execute d
    ({s with seqPaxos:=seqPaxos},d)
  | .ble b => ({s with ble:=s.ble.handle b},d)

def electionTimeout (s : OmniPaxos T) : OmniPaxos T :=
  match s.ble.hbTimeout s.seqPaxos.state s.seqPaxos.promise with
  | (none,ble) => {s with ble:=ble}
  | (some newLeader,ble) => {s with ble:=ble,seqPaxos:=s.seqPaxos.handleLeader newLeader}

def tick (s : OmniPaxos T) : OmniPaxos T :=
  match s.electionClock.tickAndCheckTimeout with
  | (true,clock) => {s with electionClock:=clock}.electionTimeout
  | (false,clock) => {s with electionClock:=clock}

def tryBecomeLeader (s : OmniPaxos T) : OmniPaxos T :=
  {s with seqPaxos:=s.seqPaxos.handleLeader {s.ble.currentBallot with n:=s.seqPaxos.promise.n+1}}

end OmniPaxos

inductive ClusterMessage where
  | omniPaxosMessage (m : Message Command)
  | leaderStartSignal (startTime : Int)

inductive ClientMessage where
  | append (commandId : CommandId) (kvCommand : KVCommand)
  | ack (command : Command) (lastIdx : Nat)
  deriving DecidableEq, Repr

inductive ServerMessage where
  | write (id : CommandId)
  | read (id : CommandId) (value : Option String)
  | ack (command : Command) (hash : UInt64) (speculation : Speculation) (lastIdx : Nat)
  | startSignal (startTime : Int)
  deriving DecidableEq, Repr

-- The database behind its lock, with the commands that were executed on it.
structure Store where
  database : Database := .new
  executed : List Command := []

def Store.handleCommand (command : Command) (s : Store) : Option (Option String) × Store :=
  let (result,database) := s.database.handleCommand command.kvCmd
  (result,⟨database,s.executed++[command]⟩)

-- Where the main loop stands. Applying decided entries takes the storage lock
-- twice, so other tasks can run between the index and the entries it reads.
inductive MainLoop where
  | idle
  | readDecidedIdx
  | readDecidedSuffix (newDecidedIdx : Nat)
  | panicked
  deriving DecidableEq, Repr

structure ServerConfig where
  serverId : NodeId
  nodes : List NodeId
  flexibleQuorum : Option FlexibleQuorum := none
  numClients : Nat := 1
  clockUncertaintyUs : Nat := 10
  clockSyncIntervalMs : Nat := 1

-- A proposal as the main loop made it: the role it met and what the leader answered.
structure Proposal where
  command : Command
  role : Role
  speculation : Speculation
  deriving DecidableEq, Repr

-- `toClient` and `toCluster` are what was handed to the connections, in order.
-- `proposed` and `confirmed` record the main loop's inputs with the role they met.
structure Server where
  id : NodeId
  numClients : Nat
  privateCommandId : Nat := 0
  store : Store := {}
  omnipaxos : OmniPaxos Command
  currentDecidedIdx : Nat := 0
  mainLoop : MainLoop := .idle
  toClient : List (ClientId × ServerMessage) := []
  toCluster : List (NodeId × ClusterMessage) := []
  proposed : List Proposal := []
  confirmed : List (Command × Nat × Role) := []

namespace Server

abbrev seqPaxos (s : Server) : SequencePaxos Command := s.omnipaxos.seqPaxos
abbrev log (s : Server) : List Command := s.seqPaxos.log
abbrev decidedIdx (s : Server) : Nat := s.seqPaxos.decidedIdx
abbrev role (s : Server) : Role := s.seqPaxos.role

-- The model of the uncertainty as a drift bound follows the configuration; the
-- other settings are the library's defaults, with batches of one entry.
def new (config : ServerConfig) (now : SystemTime) : Server :=
  let peers := config.nodes.filter (· ≠ config.serverId)
  let drift := Duration.fromMicros config.clockUncertaintyUs
  { id:=config.serverId
    numClients:=config.numClients
    omnipaxos:={
      seqPaxos:=.new config.serverId peers 1
        {master:=config.serverId,drift:=drift,uncertainty:=drift,syncFreq:=config.clockSyncIntervalMs,logicalTime:=now}
      ble:=.new ⟨1,config.serverId,peers,0,config.flexibleQuorum⟩ none
      electionClock:={timeout:=1}}}

def newCommand (s : Server) (sender : ClientId) (commandId : CommandId) (kvCommand : KVCommand) : Command where
  clientId := sender
  coordinatorId := s.id
  id := commandId
  privateId := s.privateCommandId
  deadline := s.seqPaxos.queue.clock.newDeadline
  kvCmd := kvCommand

-- Between reading the clock and proposing, the main loop touches nothing that
-- another task writes, so the whole call is one step.
def appendToLog (s : Server) (sender : ClientId) (commandId : CommandId) (kvCommand : KVCommand) : Server :=
  let command := s.newCommand sender commandId kvCommand
  match s.seqPaxos.append command Store.handleCommand s.store with
  | none => {s with mainLoop:=.panicked}
  | some (seqPaxos,store) =>
    {s with
      privateCommandId:=s.privateCommandId+1
      store:=store
      omnipaxos:={s.omnipaxos with seqPaxos:=seqPaxos}
      proposed:=s.proposed++[⟨command,s.role,
        if s.role = .leader then some (s.store.handleCommand command).1 else none⟩]}

def handleConfirm (s : Server) (command : Command) (lastIdx : Nat) : Server :=
  let (seqPaxos,store) := s.seqPaxos.handle ⟨10,10,.confirm command lastIdx⟩ Store.handleCommand s.store
  {s with
    store:=store
    omnipaxos:={s.omnipaxos with seqPaxos:=seqPaxos}
    confirmed:=s.confirmed++[(command,lastIdx,s.role)]}

def handleClientMessage (s : Server) (sender : ClientId) : ClientMessage → Server
  | .append commandId kvCommand => s.appendToLog sender commandId kvCommand
  | .ack command lastIdx => s.handleConfirm command lastIdx

def sendClientStartSignals (s : Server) (startTime : Int) : Server :=
  {s with toClient:=s.toClient++(List.range s.numClients).map fun i => (i+1,.startSignal startTime)}

-- A confirm inside a cluster message is handled like one from the proxy.
def confirmIn : ClusterMessage → Option (Command × Nat)
  | .omniPaxosMessage (.sequencePaxos ⟨_,_,.confirm command lastIdx⟩) => some (command,lastIdx)
  | _ => none

def handleClusterMessage (s : Server) : ClusterMessage → Server
  | .omniPaxosMessage m =>
    let (omnipaxos,store) := s.omnipaxos.handleIncoming m Store.handleCommand s.store
    let confirms := (confirmIn (.omniPaxosMessage m)).toList.map fun (command,lastIdx) => (command,lastIdx,s.role)
    {s with omnipaxos:=omnipaxos,store:=store,mainLoop:=.readDecidedIdx,confirmed:=s.confirmed++confirms}
  | .leaderStartSignal startTime => s.sendClientStartSignals startTime

def decidedCommands : List (LogEntry Command) → Option (List Command)
  | [] => some []
  | .decided command::rest => (decidedCommands rest).map (command::·)
  | _::_ => none

def respond (s : Server) (command : Command) (read : Option (Option String)) : List (ClientId × ServerMessage) :=
  if command.coordinatorId = s.id then
    [(command.clientId,match read with
      | some value => .read command.id value
      | none => .write command.id)]
  else []

def updateDatabaseAndRespond (s : Server) : List Command → Server
  | [] => s
  | command::rest =>
    let (read,store) := s.store.handleCommand command
    updateDatabaseAndRespond {s with store:=store,toClient:=s.toClient++s.respond command read} rest

-- The first lock: the decided index.
def handleDecidedIdx (s : Server) : Server :=
  if s.currentDecidedIdx < s.decidedIdx then {s with mainLoop:=.readDecidedSuffix s.decidedIdx}
  else {s with mainLoop:=.idle}

-- The second lock: the entries, whatever the decided index is by now.
def handleDecidedSuffix (s : Server) (newDecidedIdx : Nat) : Server :=
  match s.seqPaxos.internalStorage.readDecidedSuffix s.currentDecidedIdx with
  | .ok (some entries) =>
    let s := {s with currentDecidedIdx:=newDecidedIdx}
    match decidedCommands entries with
    | some commands => {s.updateDatabaseAndRespond commands with mainLoop:=.idle}
    | none => {s with mainLoop:=.panicked}
  | _ => {s with mainLoop:=.panicked}

def sendOutgoingMsgs (s : Server) : Server :=
  let (msgs,seqPaxos) := s.seqPaxos.takeOutgoingMsgs
  let (acks,seqPaxos) := seqPaxos.takeOutgoingClientMsgs
  let out := msgs++s.omnipaxos.ble.outgoing.map .ble
  {s with
    omnipaxos:={s.omnipaxos with seqPaxos:=seqPaxos,ble:={s.omnipaxos.ble with outgoing:=[]}}
    toCluster:=s.toCluster++out.map fun m => (match m with
      | .sequencePaxos p => p.receiver
      | .ble b => b.receiver,.omniPaxosMessage m)
    toClient:=s.toClient++acks.map fun a => (1,.ack a.req a.hash a.speculation a.acceptedIdx)}

def sendClusterStartSignals (s : Server) (startTime : Int) : Server :=
  {s with toCluster:=s.toCluster++s.seqPaxos.peers.map fun peer => (peer,.leaderStartSignal startTime)}

-- What can happen next on one server: a message for the main loop, a step of
-- the main loop itself, or a step of a background task.
inductive Act where
  | client (sender : ClientId) (m : ClientMessage)
  | cluster (m : ClusterMessage)
  | decided
  | tick
  | tryBecomeLeader
  | reconnected (pid : NodeId)
  | startSignals (startTime : Int)
  | send
  | task (place : Nat) (now : SystemTime)
  | wait
  | clockTick (fast : Bool)

-- The confirm an action delivers, if it delivers one.
def Act.confirms : Act → Option (Command × Nat)
  | .client _ (.ack command lastIdx) => some (command,lastIdx)
  | .cluster m => confirmIn m
  | _ => none

def withPaxos (s : Server) (seqPaxos : SequencePaxos Command) : Server :=
  {s with omnipaxos:={s.omnipaxos with seqPaxos:=seqPaxos}}

-- A panic of the main loop ends the process.
def step (hasher : List UInt8 → UInt64) (s : Server) : Act → Option Server
  | .client sender m => if s.mainLoop = .idle then some (s.handleClientMessage sender m) else none
  | .cluster m => if s.mainLoop = .idle then some (s.handleClusterMessage m) else none
  | .decided => match s.mainLoop with
    | .readDecidedIdx => some s.handleDecidedIdx
    | .readDecidedSuffix newDecidedIdx => some (s.handleDecidedSuffix newDecidedIdx)
    | _ => none
  | .tick => if s.mainLoop = .idle then some {s with omnipaxos:=s.omnipaxos.tick} else none
  | .tryBecomeLeader => if s.mainLoop = .idle then some {s with omnipaxos:=s.omnipaxos.tryBecomeLeader} else none
  | .reconnected pid => if s.mainLoop = .idle then some (s.withPaxos (s.seqPaxos.reconnected pid)) else none
  | .startSignals startTime =>
    if s.mainLoop = .idle then some ((s.sendClusterStartSignals startTime).sendClientStartSignals startTime) else none
  | .send => if s.mainLoop = .idle then some s.sendOutgoingMsgs else none
  | .task place now =>
    if s.mainLoop = .panicked then none else (s.seqPaxos.runTask hasher place now).map s.withPaxos
  | .wait => if s.mainLoop = .panicked then none else s.seqPaxos.wait.map s.withPaxos
  | .clockTick fast => if s.mainLoop = .panicked then none else some (s.withPaxos (s.seqPaxos.clockTick fast))

end Server
end OmniPaxosKV

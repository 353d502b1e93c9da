import OmniPaxosKV.Server

-- Building one node: the checks on its configuration, and what it takes over
-- from the storage it is built on.
namespace OmniPaxosKV

inductive ConfigError where
  | invalidConfig (message : String)
  deriving DecidableEq, Repr

-- A configuration is refused with an error value; a failed `unwrap` ends the caller.
inductive BuildError where
  | refused (err : ConfigError)
  | panicked
  deriving DecidableEq, Repr

-- The first check that fails ends the validation with its text.
def validConfig (holds : Bool) (message : String) : Except ConfigError Unit :=
  if holds then .ok () else .error (.invalidConfig message)

def ClusterConfig.validate (config : ClusterConfig) : Except ConfigError Unit := do
  let numNodes := config.nodes.length
  validConfig (1 < numNodes) "Need more than 1 node"
  validConfig (config.configurationId ≠ 0) "Configuration ID cannot be 0"
  match config.flexibleQuorum with
  | none => return ()
  | some ⟨readQuorumSize,writeQuorumSize⟩ =>
    validConfig (numNodes < readQuorumSize+writeQuorumSize)
      "The quorums must overlap i.e., the sum of their sizes must exceed the # of nodes"
    validConfig (2 ≤ readQuorumSize ∧ readQuorumSize ≤ numNodes)
      "Read quorum must be in range 2 to # of nodes in the cluster"
    validConfig (2 ≤ writeQuorumSize ∧ writeQuorumSize ≤ numNodes)
      "Write quorum must be in range 2 to # of nodes in the cluster"
    validConfig (writeQuorumSize ≤ readQuorumSize) "Read quorum size must be >= the write quorum size."

-- The settings of one node. Those that only the logger or the UI read are left out.
structure OmniPaxosServerConfig where
  pid : NodeId := 0
  electionTickTimeout : Nat := 1
  resendMessageTickTimeout : Nat := 100
  bufferSize : Nat := 100000
  batchSize : Nat := 1
  leaderPriority : Nat := 0

def OmniPaxosServerConfig.validate (config : OmniPaxosServerConfig) : Except ConfigError Unit := do
  validConfig (config.pid ≠ 0) "Server pid cannot be 0"
  validConfig (config.bufferSize ≠ 0) "Buffer size must be greater than 0"
  validConfig (config.batchSize ≠ 0) "Batch size must be greater than 0"
  validConfig (config.electionTickTimeout ≠ 0) "Election tick timeout must be greater than 0"
  validConfig (config.resendMessageTickTimeout ≠ 0) "Resend message tick timeout must be greater than 0"

structure OmniPaxosConfig where
  clusterConfig : ClusterConfig
  serverConfig : OmniPaxosServerConfig

namespace OmniPaxosConfig

def validate (config : OmniPaxosConfig) : Except ConfigError Unit := do
  config.clusterConfig.validate
  config.serverConfig.validate
  validConfig (config.clusterConfig.nodes.contains config.serverConfig.pid) "Nodes must include own server pid"

def peers (config : OmniPaxosConfig) : List NodeId :=
  config.clusterConfig.nodes.filter (· ≠ config.serverConfig.pid)

def bleConfig (config : OmniPaxosConfig) : BLEConfig where
  configurationId := config.clusterConfig.configurationId
  pid := config.serverConfig.pid
  peers := config.peers
  priority := config.serverConfig.leaderPriority
  flexibleQuorum := config.clusterConfig.flexibleQuorum

end OmniPaxosConfig

-- A promise found in storage makes the replica recover. The greatest pid of the
-- peers is unwrapped on the way, so there must be a peer.
def SequencePaxos.withStorage (config : OmniPaxosConfig) (storage : MemoryStorage T Unit) (clock : ClockState) :
    Except BuildError (SequencePaxos T) :=
  if config.peers = [] then .error .panicked
  else match InternalStorage.new storage config.serverConfig.batchSize with
    | .error _ => .error .panicked
    | .ok loaded =>
      let (state,leader) : (Role × Phase) × Ballot := match storage.nProm with
        | some b => ((.follower,.recover),b)
        | none => ((.follower,.none),{})
      .ok {
        internalStorage:=(InternalStorage.setPromise leader loaded).2
        queue:={clock:=clock}
        pid:=config.serverConfig.pid
        peers:=config.peers
        state:=state
        nLeader:=leader}

-- The stored ballot is the first leader that the election knows of.
def OmniPaxosConfig.build (config : OmniPaxosConfig) (storage : MemoryStorage T Unit) (clock : ClockState) :
    Except BuildError (OmniPaxos T) :=
  match config.validate with
  | .error err => .error (.refused err)
  | .ok () => do
    let seqPaxos ← SequencePaxos.withStorage config storage clock
    return {
      seqPaxos:=seqPaxos
      ble:=.new config.bleConfig storage.nProm
      electionClock:={timeout:=config.serverConfig.electionTickTimeout}}

-- What a server asks for, with the library's defaults for the rest.
def ServerConfig.omniPaxosConfig (config : ServerConfig) : OmniPaxosConfig where
  clusterConfig := ⟨1,config.nodes,config.flexibleQuorum⟩
  serverConfig := {pid:=config.serverId}

-- The node that a server starts with is the one built on empty storage.
theorem build_server (config : ServerConfig) (now : SystemTime) (valid : config.omniPaxosConfig.validate = .ok ())
    (others : config.omniPaxosConfig.peers ≠ []) :
    config.omniPaxosConfig.build {} (Server.new config now).seqPaxos.queue.clock =
      .ok (Server.new config now).omnipaxos := by
  unfold OmniPaxosConfig.build
  rw [valid]
  simp only [SequencePaxos.withStorage,if_neg others]
  rfl

end OmniPaxosKV

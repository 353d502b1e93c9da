import OmniPaxosKV.Cluster
import OmniPaxosKV.Leadership
import OmniPaxosKV.SipHash
import OmniPaxosKV.Transitions

-- How the servers start: the configured leader takes the lead, chooses a start time
-- and tells its peers, and every server passes the time on to its clients.
namespace OmniPaxosKV

def OmniPaxos.getCurrentLeader (s : OmniPaxos T) : Option (NodeId × Bool) :=
  if s.seqPaxos.promise.pid = 0 then none
  else some (s.seqPaxos.promise.pid,decide (s.seqPaxos.state.2 = .accept))

-- Where a server stands: in the loop that establishes the leader, in the batch that
-- brought it the start signal, or in the main loop.
inductive Stage where
  | establishing | signalled | running
  deriving DecidableEq

namespace Stage

-- The loop that establishes the leader does not tick the election, and what it does to
-- take the lead is an action of its own. Nothing calls `reconnected`.
def permits (stage : Stage) : Server.Act → Bool
  | .client .. => decide (stage ≠ .signalled)
  | .tick => decide (stage = .running)
  | .tryBecomeLeader => false
  | .startSignals _ => false
  | .reconnected _ => false
  | _ => true

-- The rest of the batch is handled before the loop is left.
def after (stage : Stage) : Server.Act → Stage
  | .cluster (.leaderStartSignal _) => if stage = .establishing then .signalled else stage
  | .send => if stage = .signalled then .running else stage
  | _ => stage

end Stage

structure Launch (n : Nat) where
  cluster : Cluster n
  stage : Fin n → Stage

namespace Launch
open Machine Transitions
variable {n : Nat}

abbrev server (s : Launch n) (i : Fin n) : Server := s.cluster.servers i

inductive Act (n : Nat) where
  | lead (i : Fin n) (startTime : Int)
  | other (action : Cluster.Act n)

-- The server that acts in a step of the cluster, and what it does.
def performs (c : Cluster n) : Cluster.Act n → Option (Fin n × Server.Act)
  | .deliver place => match c.proxy.toServer[place]? with
    | none => none
    | some (target,m,_) => if bound : target < n then some (⟨target,bound⟩,.client 1 m) else none
  | .exchange source place target => (c.servers source).toCluster[place]?.map fun (_,m) => (target,.cluster m)
  | .server i action => some (i,action)
  | .proxy _ => none
  | .take .. => none

variable (hasher : List UInt8 → UInt64) (initialLeader : NodeId)

-- At an interval of the establishing loop the configured leader looks whether it leads
-- already: it then sends the start signals and leaves the loop, or it tries to lead.
def step (s : Launch n) : Act n → Option (Launch n)
  | .lead i startTime =>
    if s.stage i = .establishing ∧ (s.server i).id = initialLeader then
      if (s.server i).omnipaxos.getCurrentLeader.map (·.1) = some (s.server i).id then
        ((s.server i).step hasher (.startSignals startTime)).map fun next =>
          ⟨s.cluster.updateServer i next,Function.update s.stage i .running⟩
      else ((s.server i).step hasher .tryBecomeLeader).map fun next => {s with cluster:=s.cluster.updateServer i next}
    else none
  | .other action => match performs s.cluster action with
    | none => (s.cluster.step hasher action).map fun cluster => {s with cluster:=cluster}
    | some (i,act) =>
      if (s.stage i).permits act then
        (s.cluster.step hasher action).map fun cluster => ⟨cluster,Function.update s.stage i ((s.stage i).after act)⟩
      else none

def start (cluster : Cluster n) : Launch n := ⟨cluster,fun _ => .establishing⟩

-- The start signals among what a server has handed to its connections.
def signalOf : ClientId × ServerMessage → Option (ClientId × Int)
  | (client,.startSignal startTime) => some (client,startTime)
  | _ => none

def orderOf : NodeId × ClusterMessage → Option (NodeId × Int)
  | (peer,.leaderStartSignal startTime) => some (peer,startTime)
  | _ => none

def signals (s : Server) : List (ClientId × Int) := s.toClient.filterMap signalOf
def orders (s : Server) : List (NodeId × Int) := s.toCluster.filterMap orderOf

-- What a server keeps when it neither takes the lead nor hears a start signal.
structure Same (s next : Server) : Prop where
  id : next.id = s.id
  clients : next.numClients = s.numClients
  pid : next.seqPaxos.pid = s.seqPaxos.pid
  peers : next.seqPaxos.peers = s.seqPaxos.peers
  state : next.seqPaxos.state = s.seqPaxos.state
  promise : next.seqPaxos.promise = s.seqPaxos.promise
  nLeader : next.seqPaxos.nLeader = s.seqPaxos.nLeader
  answered : ∃ more, next.toClient = s.toClient++more ∧ ∀ m ∈ more, signalOf m = none
  sent : ∃ more, next.toCluster = s.toCluster++more ∧ ∀ m ∈ more, orderOf m = none

theorem Same.signals {s next : Server} (same : Same s next) : signals next = signals s := by
  obtain ⟨more,grown,quiet⟩ := same.answered
  rw [Launch.signals,grown,List.filterMap_append,List.filterMap_eq_nil_iff.mpr quiet,List.append_nil]
  rfl

theorem Same.orders {s next : Server} (same : Same s next) : orders next = orders s := by
  obtain ⟨more,grown,quiet⟩ := same.sent
  rw [Launch.orders,grown,List.filterMap_append,List.filterMap_eq_nil_iff.mpr quiet,List.append_nil]
  rfl

theorem append_promise (s : SequencePaxos Command) (req : Command) (speculation : Speculation) :
    (s.appendReleased hasher req speculation).1.promise = s.promise ∧
    (s.appendReleased hasher req speculation).1.pid = s.pid ∧ (s.appendReleased hasher req speculation).1.peers = s.peers ∧
    (s.appendReleased hasher req speculation).1.state = s.state ∧
    (s.appendReleased hasher req speculation).1.nLeader = s.nLeader := by
  have cached : ∀ cache : StateCache Command, (cache.appendEntries [req]).2.promise = cache.promise := by
    intro cache
    unfold StateCache.appendEntries StateCache.takeEntriesIfBatchIsFull
    split <;> rfl
  have stored : (InternalStorage.appendEntriesAndGetAcceptedIdx [req] s.internalStorage).2.stateCache.promise = s.promise := by
    unfold InternalStorage.appendEntriesAndGetAcceptedIdx
    have same := cached s.internalStorage.stateCache
    split
    · rename_i cache taken
      rw [taken] at same
      exact same
    · rename_i flushed cache taken
      rw [taken] at same
      unfold InternalStorage.appendEntriesWithoutBatching
      split
      · rename_i failed
        split at failed <;> cases failed
        exact same
      · rename_i wrote
        split at wrote <;> cases wrote
        exact same
  unfold SequencePaxos.appendReleased
  split
  · rename_i taken
    rw [taken] at stored
    exact ⟨stored,rfl,rfl,rfl,rfl⟩
  · rename_i taken
    rw [taken] at stored
    exact ⟨stored,rfl,rfl,rfl,rfl⟩

variable {hasher initialLeader}

theorem same_advance {s next : SequencePaxos Command} (ran : Advance hasher s task next task') :
    next.pid = s.pid ∧ next.peers = s.peers ∧ next.state = s.state ∧ next.promise = s.promise ∧ next.nLeader = s.nLeader := by
  cases ran with
  | append released =>
    obtain ⟨promise,pid,peers,state,nLeader⟩ := append_promise hasher s _ _
    exact ⟨pid,peers,state,promise,nLeader⟩
  | _ => exact ⟨rfl,rfl,rfl,rfl,rfl⟩

theorem same_send (s : Server) : Same s s.sendOutgoingMsgs := by
  refine ⟨rfl,rfl,rfl,rfl,rfl,rfl,rfl,⟨_,rfl,?_⟩,⟨_,rfl,?_⟩⟩
  · intro m member
    obtain ⟨ack,_,rfl⟩ := List.mem_map.mp member
    rfl
  · intro m member
    obtain ⟨message,_,rfl⟩ := List.mem_map.mp member
    rfl

theorem quiet_step {s next : Server} (ran : Step hasher s action next) (loud : calm action = false)
    (connected : ∀ pid, action ≠ .reconnected pid) : Same s next := by
  have clients : ∃ more, s.toClient = s.toClient++more ∧ ∀ m ∈ more, signalOf m = none :=
    ⟨[],(List.append_nil _).symm,nofun⟩
  have peers : ∃ more, s.toCluster = s.toCluster++more ∧ ∀ m ∈ more, orderOf m = none :=
    ⟨[],(List.append_nil _).symm,nofun⟩
  cases ran with
  | signal _ quiet | rest _ quiet | elect _ quiet => cases loud.symm.trans quiet
  | reconnect => exact absurd rfl (connected _)
  | send => exact same_send s
  | replay _ _ _ answers =>
    refine ⟨rfl,rfl,rfl,rfl,rfl,rfl,rfl,⟨_,rfl,?_⟩,peers⟩
    rintro ⟨client,m⟩ member
    have answer := answers _ member
    cases m with
    | startSignal => cases answer
    | _ => rfl
  | task found advanced =>
    obtain ⟨pid,peers',state,promise,nLeader⟩ := same_advance advanced
    exact ⟨rfl,rfl,pid,peers',state,promise,nLeader,clients,peers⟩
  | _ => exact ⟨rfl,rfl,rfl,rfl,rfl,rfl,rfl,clients,peers⟩

-- Only a tick of the election changes the ballot that a node runs for.
theorem ballot_step {s next : Server} (ran : s.step hasher action = some next) (resting : action ≠ .tick) :
    next.omnipaxos.ble.currentBallot = s.omnipaxos.ble.currentBallot := by
  cases action <;> simp only [Server.step] at ran
  case client sender m =>
    split at ran <;> cases ran
    cases m with
    | append commandId kv =>
      simp only [Server.handleClientMessage,Server.appendToLog]
      split <;> rfl
    | ack command lastIdx => rfl
  case cluster m =>
    split at ran <;> cases ran
    cases m with
    | leaderStartSignal => rfl
    | omniPaxosMessage m =>
      cases m with
      | sequencePaxos => rfl
      | ble b =>
        obtain ⟨replies,outgoing,handled⟩ := Leadership.handle_parts s.omnipaxos.ble b
        simp only [Server.handleClusterMessage,OmniPaxos.handleIncoming,handled]
  case decided =>
    split at ran
    · cases ran
      unfold Server.handleDecidedIdx
      split <;> rfl
    · rename_i newDecidedIdx _
      cases ran
      unfold Server.handleDecidedSuffix
      split
      · dsimp only
        split
        · rename_i commands _
          obtain ⟨toClient,_,applied⟩ :=
            updateDatabaseAndRespond_eq {s with currentDecidedIdx:=newDecidedIdx} commands
          rw [applied]
        · rfl
      · rfl
    · cases ran
  case tick => exact absurd rfl resting
  case task =>
    split at ran
    · cases ran
    · obtain ⟨seqPaxos,_,rfl⟩ := Option.map_eq_some_iff.mp ran
      rfl
  case wait =>
    split at ran
    · cases ran
    · obtain ⟨seqPaxos,_,rfl⟩ := Option.map_eq_some_iff.mp ran
      rfl
  all_goals
    split at ran <;> cases ran
    rfl

-- How a step of the start goes: which server acts, and what that means for the signals.
inductive Moves (initialLeader : NodeId) (s next : Launch n) : Prop where
  | rest (servers : next.cluster.servers = s.cluster.servers) (exchanged : next.cluster.exchanged = s.cluster.exchanged)
      (stage : next.stage = s.stage)
  | attempt (i : Fin n) (waits : s.stage i = .establishing) (chosen : (s.server i).id = initialLeader)
      (follows : (s.server i).omnipaxos.getCurrentLeader.map (·.1) ≠ some (s.server i).id)
      (acts : next = {s with
        cluster:=(s.cluster.updateServer i {s.server i with omnipaxos:=(s.server i).omnipaxos.tryBecomeLeader})})
  | lead (i : Fin n) (startTime : Int) (waits : s.stage i = .establishing) (chosen : (s.server i).id = initialLeader)
      (leads : (s.server i).omnipaxos.getCurrentLeader.map (·.1) = some (s.server i).id)
      (acts : next = ⟨s.cluster.updateServer i (((s.server i).sendClusterStartSignals startTime).sendClientStartSignals startTime),
        Function.update s.stage i .running⟩)
  | hear (i source : Fin n) (place : Nat) (startTime : Int)
      (message : (s.server source).toCluster[place]? = some ((s.server i).id,.leaderStartSignal startTime))
      (fresh : (source.val,place) ∉ s.cluster.exchanged)
      (servers : next.cluster.servers = Function.update s.cluster.servers i ((s.server i).sendClientStartSignals startTime))
      (exchanged : next.cluster.exchanged = s.cluster.exchanged++[(source.val,place)])
      (stage : next.stage = Function.update s.stage i (if s.stage i = .establishing then .signalled else s.stage i))
  | keep (i : Fin n) (server : Server) (same : Same (s.server i) server)
      (ballot : server.omnipaxos.ble.currentBallot = (s.server i).omnipaxos.ble.currentBallot)
      (servers : next.cluster.servers = Function.update s.cluster.servers i server)
      (exchanged : ∃ more, next.cluster.exchanged = s.cluster.exchanged++more ∧ ∀ source place, (source,place) ∈ more →
        ∃ (j : Fin n) (m : NodeId × ClusterMessage), j.val = source ∧ (s.server j).toCluster[place]? = some m ∧ orderOf m = none)
      (stage : next.stage = s.stage ∨ s.stage i = .signalled ∧ next.stage = Function.update s.stage i .running)
  | tick (i : Fin n) (runs : s.stage i = .running)
      (servers : next.cluster.servers = Function.update s.cluster.servers i
        {s.server i with omnipaxos:=(s.server i).omnipaxos.tick})
      (exchanged : next.cluster.exchanged = s.cluster.exchanged) (stage : next.stage = s.stage)

theorem lead_moves {s next : Launch n} (ran : step hasher initialLeader s (.lead i startTime) = some next) :
    Moves initialLeader s next := by
  simp only [step] at ran
  split at ran
  · rename_i meets
    obtain ⟨waits,chosen⟩ := meets
    split at ran
    · rename_i leads
      obtain ⟨server,acts,rfl⟩ := Option.map_eq_some_iff.mp ran
      simp only [Server.step] at acts
      split at acts <;> cases acts
      exact .lead i startTime waits chosen leads rfl
    · rename_i follows
      obtain ⟨server,acts,rfl⟩ := Option.map_eq_some_iff.mp ran
      simp only [Server.step] at acts
      split at acts <;> cases acts
      exact .attempt i waits chosen follows rfl
  · cases ran

theorem lead_starts {s next : Launch n} (ran : step hasher initialLeader s (.lead i startTime) = some next)
    (runs : next.stage i = .running) : s.stage i = .establishing ∧ (s.server i).id = initialLeader ∧
      (s.server i).omnipaxos.getCurrentLeader.map (·.1) = some (s.server i).id := by
  simp only [step] at ran
  split at ran
  · rename_i meets
    obtain ⟨waits,chosen⟩ := meets
    split at ran
    · rename_i leads
      exact ⟨waits,chosen,leads⟩
    · obtain ⟨server,_,rfl⟩ := Option.map_eq_some_iff.mp ran
      rw [waits] at runs
      cases runs
  · cases ran

-- What the cluster's step does, where a server acts in it.
theorem performed {c next : Cluster n} (acting : performs c action = some (i,act)) (ran : c.step hasher action = some next) :
    ∃ server, (c.servers i).step hasher act = some server ∧ next.servers = Function.update c.servers i server ∧
      ((∀ m, act ≠ .cluster m) ∧ next.exchanged = c.exchanged ∨
        ∃ (source : Fin n) (place : Nat) (m : ClusterMessage), act = .cluster m ∧
          (c.servers source).toCluster[place]? = some ((c.servers i).id,m) ∧ (source.val,place) ∉ c.exchanged ∧
          next.exchanged = c.exchanged++[(source.val,place)]) := by
  cases action <;> simp only [performs] at acting <;> simp only [Cluster.step] at ran
  case proxy => cases acting
  case take => cases acting
  case deliver place =>
    split at acting
    · cases acting
    · rename_i target m cause found
      split at acting <;> cases acting
      rename_i bound
      rw [found] at ran
      simp only [dif_pos bound] at ran
      split at ran
      · cases ran
      · obtain ⟨server,acts,rfl⟩ := Option.map_eq_some_iff.mp ran
        refine ⟨server,acts,?_,.inl ⟨fun _ same => (by cases same),?_⟩⟩
        · cases cause <;> rfl
        · cases cause <;> rfl
  case exchange source place target =>
    obtain ⟨⟨pid,m⟩,found,same⟩ := Option.map_eq_some_iff.mp acting
    cases same
    rw [found] at ran
    simp only at ran
    split at ran
    · rename_i meets
      obtain ⟨receiver,fresh⟩ := meets
      obtain ⟨server,acts,rfl⟩ := Option.map_eq_some_iff.mp ran
      exact ⟨server,acts,rfl,.inr ⟨source,place,m,rfl,receiver ▸ found,fresh,rfl⟩⟩
    · cases ran
  case server j action =>
    cases acting
    split at ran
    · rename_i internal
      obtain ⟨server,acts,rfl⟩ := Option.map_eq_some_iff.mp ran
      refine ⟨server,acts,rfl,.inl ⟨?_,rfl⟩⟩
      rintro m rfl
      cases internal
    · cases ran

theorem unperformed {c next : Cluster n} (nobody : performs c action = none) (ran : c.step hasher action = some next) :
    next.servers = c.servers ∧ next.exchanged = c.exchanged := by
  cases action <;> simp only [performs] at nobody <;> simp only [Cluster.step] at ran
  case proxy =>
    split at ran
    · obtain ⟨proxy,_,rfl⟩ := Option.map_eq_some_iff.mp ran
      exact ⟨rfl,rfl⟩
    · cases ran
  case take =>
    split at ran
    · cases ran
    · split at ran
      · split at ran
        · split at ran
          · cases ran
          · obtain ⟨proxy,_,rfl⟩ := Option.map_eq_some_iff.mp ran
            exact ⟨rfl,rfl⟩
        · cases ran
      · cases ran
  case deliver =>
    split at nobody
    · rename_i absent
      rw [absent] at ran
      cases ran
    · rename_i target m cause found
      split at nobody
      · cases nobody
      · rename_i outside
        rw [found] at ran
        simp only [dif_neg outside] at ran
        cases ran
  case exchange source place target =>
    have absent := Option.map_eq_none_iff.mp nobody
    rw [absent] at ran
    cases ran
  case server => cases nobody

-- A permitted action that is no tick and no start signal.
theorem keep_moves {s : Launch n} {cluster : Cluster n} {server : Server} (quiet : calm act = false) (connected : ∀ pid, act ≠ .reconnected pid)
    (stage : (s.stage i).after act = s.stage i ∨ s.stage i = .signalled ∧ (s.stage i).after act = .running)
    (acts : (s.server i).step hasher act = some server)
    (servers : cluster.servers = Function.update s.cluster.servers i server)
    (exchanged : (∀ m, act ≠ .cluster m) ∧ cluster.exchanged = s.cluster.exchanged ∨
      ∃ (source : Fin n) (place : Nat) (m : ClusterMessage), act = .cluster m ∧
        (s.server source).toCluster[place]? = some ((s.server i).id,m) ∧ (source.val,place) ∉ s.cluster.exchanged ∧
        cluster.exchanged = s.cluster.exchanged++[(source.val,place)]) :
    Moves initialLeader s ⟨cluster,Function.update s.stage i ((s.stage i).after act)⟩ := by
  have same := quiet_step (step_sound acts) quiet connected
  have ballot := ballot_step acts (fun ticks => by rw [ticks] at quiet; cases quiet)
  refine .keep i server same ballot servers ?_ ?_
  · rcases exchanged with ⟨_,none⟩ | ⟨source,place,m,rfl,message,_,one⟩
    · exact ⟨[],none.trans (List.append_nil _).symm,nofun⟩
    · refine ⟨_,one,fun from_ at_ member => ?_⟩
      cases List.mem_singleton.mp member
      refine ⟨source,_,rfl,message,?_⟩
      cases m with
      | omniPaxosMessage => rfl
      | leaderStartSignal => cases quiet
  · rcases stage with stays | ⟨signalled,runs⟩
    · left
      rw [stays]
      exact Function.update_eq_self ..
    · right
      rw [runs]
      exact ⟨signalled,rfl⟩

theorem step_moves {s next : Launch n} (ran : step hasher initialLeader s action = some next) : Moves initialLeader s next := by
  cases action with
  | lead i startTime => exact lead_moves ran
  | other action =>
    simp only [step] at ran
    split at ran
    · rename_i nobody
      obtain ⟨cluster,moved,rfl⟩ := Option.map_eq_some_iff.mp ran
      obtain ⟨servers,exchanged⟩ := unperformed nobody moved
      exact .rest servers exchanged rfl
    · rename_i i act acting
      split at ran
      · rename_i permitted
        obtain ⟨cluster,moved,rfl⟩ := Option.map_eq_some_iff.mp ran
        obtain ⟨server,acts,servers,exchanged⟩ := performed acting moved
        cases act with
        | tick =>
          simp only [Server.step] at acts
          split at acts <;> cases acts
          obtain ⟨_,exchanged⟩ | ⟨_,_,_,impossible,_⟩ := exchanged
          · exact .tick i (of_decide_eq_true permitted) servers exchanged (Function.update_eq_self ..)
          · cases impossible
        | tryBecomeLeader => cases permitted
        | startSignals => cases permitted
        | reconnected => cases permitted
        | cluster m =>
          cases m with
          | omniPaxosMessage m => exact keep_moves rfl (fun _ same => by cases same) (.inl rfl) acts servers exchanged
          | leaderStartSignal startTime =>
            simp only [Server.step] at acts
            split at acts <;> cases acts
            obtain ⟨none,_⟩ | ⟨source,place,_,same,message,fresh,exchanged⟩ := exchanged
            · exact absurd rfl (none _)
            · cases same
              exact .hear i source place startTime message fresh servers exchanged rfl
        | send =>
          refine keep_moves rfl (fun _ same => by cases same) ?_ acts servers exchanged
          by_cases signalled : s.stage i = .signalled
          · exact .inr ⟨signalled,if_pos signalled⟩
          · exact .inl (if_neg signalled)
        | _ => exact keep_moves rfl (fun _ same => by cases same) (.inl rfl) acts servers exchanged
      · cases ran

-- The start is a run of the cluster: what holds of all those holds of it.
theorem step_cluster {s next : Launch n} (ran : step hasher initialLeader s action = some next) :
    ∃ moved, s.cluster.step hasher moved = some next.cluster := by
  cases action with
  | lead i startTime =>
    simp only [step] at ran
    split at ran
    · split at ran
      · obtain ⟨server,acts,rfl⟩ := Option.map_eq_some_iff.mp ran
        refine ⟨.server i (.startSignals startTime),?_⟩
        simp only [Cluster.step,Cluster.serverInternal,if_true,acts,Option.map_some]
      · obtain ⟨server,acts,rfl⟩ := Option.map_eq_some_iff.mp ran
        refine ⟨.server i .tryBecomeLeader,?_⟩
        simp only [Cluster.step,Cluster.serverInternal,if_true,acts,Option.map_some]
    · cases ran
  | other action =>
    simp only [step] at ran
    split at ran
    · obtain ⟨cluster,moved,rfl⟩ := Option.map_eq_some_iff.mp ran
      exact ⟨action,moved⟩
    · split at ran
      · obtain ⟨cluster,moved,rfl⟩ := Option.map_eq_some_iff.mp ran
        exact ⟨action,moved⟩
      · cases ran

theorem runs_cluster {allowed : Launch n → Act n → Prop} (path : Runs (step hasher initialLeader) allowed s actions next) :
    ∃ moves, Runs (Cluster.step hasher) (fun _ _ => True) s.cluster moves next.cluster := by
  induction path with
  | nil => exact ⟨[],.nil⟩
  | snoc _ _ ran ih =>
    obtain ⟨moves,path⟩ := ih
    obtain ⟨moved,ran⟩ := step_cluster ran
    exact ⟨moves++[moved],.snoc path trivial ran⟩

def peersOf (config : ServerConfig) : List NodeId := config.nodes.filter (· ≠ config.serverId)

-- The signals of one start, one for each client.
def startSignals (config : ServerConfig) (startTime : Int) : List (ClientId × Int) :=
  (List.range config.numClients).map fun i => (i+1,startTime)

-- A server that has not come to its main loop: it follows nobody, or it is the
-- configured leader and has taken the lead.
structure Waiting (config : ServerConfig) (initialLeader : NodeId) (s : Server) : Prop where
  pid : s.seqPaxos.pid = config.serverId
  peers : s.seqPaxos.peers = peersOf config
  ballot : s.omnipaxos.ble.currentBallot.pid = config.serverId
  stands : (s.seqPaxos.promise = {} ∧ s.seqPaxos.nLeader = {} ∧ s.role = .follower) ∨
    (config.serverId = initialLeader ∧ s.seqPaxos.promise.pid = initialLeader ∧ s.role = .leader)

-- One start time for all, once the configured leader has chosen it.
structure Valid (configs : Fin n → ServerConfig) (initialLeader : NodeId) (startTime : Int) (s : Launch n) : Prop where
  id : ∀ i, (s.server i).id = (configs i).serverId
  clients : ∀ i, (s.server i).numClients = (configs i).numClients
  waiting : ∀ i, s.stage i ≠ .running → Waiting (configs i) initialLeader (s.server i)
  signals : ∀ i, signals (s.server i) = if s.stage i = .establishing then [] else startSignals (configs i) startTime
  orders : ∀ i, orders (s.server i) =
    if s.stage i = .running ∧ (configs i).serverId = initialLeader then (peersOf (configs i)).map (·,startTime) else []
  leads : ∀ i, (configs i).serverId = initialLeader → s.stage i ≠ .signalled
  started : ∀ i, s.stage i ≠ .establishing → ∃ l, (configs l).serverId = initialLeader ∧ s.stage l = .running
  arrived : ∀ (source : Fin n) (place : Nat) (i : Fin n) (time : Int),
    (s.server source).toCluster[place]? = some ((configs i).serverId,.leaderStartSignal time) →
    ((source.val,place) ∈ s.cluster.exchanged ↔ s.stage i ≠ .establishing)
  bounded : ∀ (source : Fin n) (place : Nat), (source.val,place) ∈ s.cluster.exchanged → place < (s.server source).toCluster.length

variable {configs : Fin n → ServerConfig} {startTime time time' : Int} {s : Launch n} {source source' i : Fin n}
variable {place place' : Nat} {pid : NodeId}

theorem Waiting.same {config : ServerConfig} {s next : Server} (waiting : Waiting config initialLeader s) (same : Same s next)
    (ballot : next.omnipaxos.ble.currentBallot = s.omnipaxos.ble.currentBallot) : Waiting config initialLeader next := by
  refine ⟨same.pid.trans waiting.pid,same.peers.trans waiting.peers,?_,?_⟩
  · rw [ballot]
    exact waiting.ballot
  · have role : next.role = s.role := congrArg Prod.fst same.state
    rw [same.promise,same.nLeader,role]
    exact waiting.stands

theorem signals_client (s : Server) (time : Int) : signals (s.sendClientStartSignals time) =
    signals s++(List.range s.numClients).map fun i => (i+1,time) := by
  have own : ((List.range s.numClients).map fun i => ((i+1 : ClientId),ServerMessage.startSignal time)).filterMap signalOf =
      (List.range s.numClients).map fun i => (i+1,time) := by
    rw [List.filterMap_map]
    exact congrFun (List.filterMap_eq_map (f:=fun i => ((i+1 : ClientId),time))) _
  rw [signals,Server.sendClientStartSignals,List.filterMap_append,own]
  rfl

theorem orders_cluster (s : Server) (time : Int) : orders (s.sendClusterStartSignals time) =
    orders s++s.seqPaxos.peers.map (·,time) := by
  have own : (s.seqPaxos.peers.map fun peer => (peer,ClusterMessage.leaderStartSignal time)).filterMap orderOf =
      s.seqPaxos.peers.map (·,time) := by
    rw [List.filterMap_map]
    exact congrFun (List.filterMap_eq_map (f:=fun peer => ((peer : NodeId),time))) _
  rw [orders,Server.sendClusterStartSignals,List.filterMap_append,own]
  rfl

-- No peer is told twice.
theorem order_places {messages : List (NodeId × ClusterMessage)} (apart : ((messages.filterMap orderOf).map (·.1)).Nodup)
    (first : messages[place]? = some (pid,.leaderStartSignal time))
    (second : messages[place']? = some (pid,.leaderStartSignal time')) : place = place' := by
  obtain ⟨inside,one⟩ := List.getElem?_eq_some_iff.mp first
  obtain ⟨inside',two⟩ := List.getElem?_eq_some_iff.mp second
  have pairwise := List.pairwise_iff_getElem.mp (List.pairwise_filterMap.mp (List.pairwise_map.mp apart))
  rcases Nat.lt_trichotomy place place' with before | same | later
  · have differ := pairwise place place' inside inside' before (pid,time) (by rw [one]; rfl) (pid,time') (by rw [two]; rfl)
    exact absurd rfl differ
  · exact same
  · have differ := pairwise place' place inside' inside later (pid,time') (by rw [two]; rfl) (pid,time) (by rw [one]; rfl)
    exact absurd rfl differ

theorem order_mem {s : Server} (found : s.toCluster[place]? = some (pid,.leaderStartSignal time)) : (pid,time) ∈ orders s :=
  List.mem_filterMap.mpr ⟨_,List.mem_of_getElem? found,rfl⟩

-- A start signal on its way is the configured leader's, to one of its peers.
theorem Valid.sent (valid : Valid configs initialLeader startTime s)
    (found : (s.server source).toCluster[place]? = some (pid,.leaderStartSignal time)) :
    s.stage source = .running ∧ (configs source).serverId = initialLeader ∧ pid ∈ peersOf (configs source) ∧ time = startTime := by
  have member := order_mem found
  rw [valid.orders source] at member
  split at member
  · rename_i meets
    obtain ⟨peer,listed,same⟩ := List.mem_map.mp member
    cases same
    exact ⟨meets.1,meets.2,listed,rfl⟩
  · cases member

theorem Valid.places (valid : Valid configs initialLeader startTime s) (listed : ∀ i, (configs i).nodes.Nodup)
    (distinct : Function.Injective fun i => (configs i).serverId)
    (first : (s.server source).toCluster[place]? = some (pid,.leaderStartSignal time))
    (second : (s.server source').toCluster[place']? = some (pid,.leaderStartSignal time')) :
    source = source' ∧ place = place' := by
  obtain ⟨_,chosen,_,_⟩ := valid.sent first
  obtain ⟨_,chosen',_,_⟩ := valid.sent second
  cases distinct (chosen.trans chosen'.symm)
  refine ⟨rfl,order_places ?_ first second⟩
  change ((Launch.orders (s.server source)).map (·.1)).Nodup
  rw [valid.orders source]
  split
  · rw [List.map_map]
    exact (List.map_id (peersOf (configs source))).symm ▸ (listed source).filter _
  · exact List.nodup_nil

section Moved
variable {next : Launch n} {server : Server}

theorem server_here (servers : next.cluster.servers = Function.update s.cluster.servers i server) : next.server i = server := by
  rw [Launch.server,servers,Function.update_self]

theorem server_others (servers : next.cluster.servers = Function.update s.cluster.servers i server) (other : j ≠ i) :
    next.server j = s.server j := by
  rw [Launch.server,servers,Function.update_of_ne other]

-- A server that hands nothing over leaves all that was handed over as it was.
theorem toCluster_kept (servers : next.cluster.servers = Function.update s.cluster.servers i server)
    (kept : server.toCluster = (s.server i).toCluster) (j : Fin n) : (next.server j).toCluster = (s.server j).toCluster := by
  rcases eq_or_ne j i with rfl | other
  · rw [server_here servers,kept]
  · rw [server_others servers other]

-- What was handed over stays at its place.
theorem toCluster_grows (servers : next.cluster.servers = Function.update s.cluster.servers i server)
    (sent : server.toCluster = (s.server i).toCluster++extra) (found : (s.server source).toCluster[place]? = some m) :
    (next.server source).toCluster[place]? = some m := by
  rcases eq_or_ne source i with rfl | other
  · rw [server_here servers,sent,List.getElem?_append_left (List.getElem?_eq_some_iff.mp found).1]
    exact found
  · rw [server_others servers other]
    exact found

theorem toCluster_longer (servers : next.cluster.servers = Function.update s.cluster.servers i server)
    (sent : server.toCluster = (s.server i).toCluster++extra) (inside : place < (s.server source).toCluster.length) :
    place < (next.server source).toCluster.length :=
  (List.getElem?_eq_some_iff.mp (toCluster_grows servers sent (List.getElem?_eq_getElem inside))).1

theorem toCluster_cases (servers : next.cluster.servers = Function.update s.cluster.servers i server)
    (sent : server.toCluster = (s.server i).toCluster++extra) (found : (next.server source).toCluster[place]? = some m) :
    (s.server source).toCluster[place]? = some m ∨
      source = i ∧ (s.server source).toCluster.length ≤ place ∧ m ∈ extra := by
  rcases eq_or_ne source i with rfl | other
  · rw [server_here servers,sent] at found
    rcases Nat.lt_or_ge place (s.server source).toCluster.length with inside | beyond
    · rw [List.getElem?_append_left inside] at found
      exact .inl found
    · rw [List.getElem?_append_right beyond] at found
      exact .inr ⟨rfl,beyond,List.mem_of_getElem? found⟩
  · rw [server_others servers other] at found
    exact .inl found

end Moved

-- One server acts and the others rest.
theorem Valid.acting {next : Launch n} {server : Server} (valid : Valid configs initialLeader startTime s)
    (servers : next.cluster.servers = Function.update s.cluster.servers i server)
    (stage : ∀ j, j ≠ i → next.stage j = s.stage j) (id : server.id = (s.server i).id)
    (clients : server.numClients = (s.server i).numClients)
    (waiting : next.stage i ≠ .running → Waiting (configs i) initialLeader server)
    (signals : Launch.signals server = if next.stage i = .establishing then [] else startSignals (configs i) startTime)
    (orders : Launch.orders server =
      if next.stage i = .running ∧ (configs i).serverId = initialLeader then (peersOf (configs i)).map (·,startTime) else [])
    (leads : (configs i).serverId = initialLeader → next.stage i ≠ .signalled)
    (started : next.stage i ≠ .establishing → ∃ l, (configs l).serverId = initialLeader ∧ next.stage l = .running)
    (going : s.stage i = .running → next.stage i = .running)
    (arrived : ∀ (source : Fin n) (place : Nat) (j : Fin n) (time : Int),
      (next.server source).toCluster[place]? = some ((configs j).serverId,.leaderStartSignal time) →
      ((source.val,place) ∈ next.cluster.exchanged ↔ next.stage j ≠ .establishing))
    (bounded : ∀ (source : Fin n) (place : Nat), (source.val,place) ∈ next.cluster.exchanged →
      place < (next.server source).toCluster.length) : Valid configs initialLeader startTime next := by
  have here := server_here servers
  have others := fun j (other : j ≠ i) => server_others servers other
  refine ⟨?_,?_,?_,?_,?_,?_,?_,arrived,bounded⟩
  · intro j
    rcases eq_or_ne j i with rfl | other
    · rw [here,id]
      exact valid.id j
    · rw [others j other]
      exact valid.id j
  · intro j
    rcases eq_or_ne j i with rfl | other
    · rw [here,clients]
      exact valid.clients j
    · rw [others j other]
      exact valid.clients j
  · intro j
    rcases eq_or_ne j i with rfl | other
    · rw [here]
      exact waiting
    · rw [others j other,stage j other]
      exact valid.waiting j
  · intro j
    rcases eq_or_ne j i with rfl | other
    · rw [here]
      exact signals
    · rw [others j other,stage j other]
      exact valid.signals j
  · intro j
    rcases eq_or_ne j i with rfl | other
    · rw [here]
      exact orders
    · rw [others j other,stage j other]
      exact valid.orders j
  · intro j
    rcases eq_or_ne j i with rfl | other
    · exact leads
    · rw [stage j other]
      exact valid.leads j
  · intro j
    rcases eq_or_ne j i with rfl | other
    · exact started
    · rw [stage j other]
      intro left
      obtain ⟨l,chosen,runs⟩ := valid.started j left
      refine ⟨l,chosen,?_⟩
      rcases eq_or_ne l i with rfl | apart
      · exact going runs
      · rw [stage l apart]
        exact runs

-- A server that keeps its place in the start hands over no new start signal.
theorem keep_valid {next : Launch n} {server : Server} (valid : Valid configs initialLeader startTime s)
    (same : Same (s.server i) server) (ballot : server.omnipaxos.ble.currentBallot = (s.server i).omnipaxos.ble.currentBallot)
    (servers : next.cluster.servers = Function.update s.cluster.servers i server)
    (exchanged : ∃ more, next.cluster.exchanged = s.cluster.exchanged++more ∧ ∀ source place, (source,place) ∈ more →
      ∃ (j : Fin n) (m : NodeId × ClusterMessage), j.val = source ∧ (s.server j).toCluster[place]? = some m ∧ orderOf m = none)
    (stage : next.stage = s.stage ∨ s.stage i = .signalled ∧ next.stage = Function.update s.stage i .running) :
    Valid configs initialLeader startTime next := by
  obtain ⟨more,grown,dull⟩ := exchanged
  obtain ⟨extra,sent,silent⟩ := same.sent
  have resting : ∀ j, j ≠ i → next.stage j = s.stage j := by
    intro j other
    rcases stage with stays | ⟨_,runs⟩
    · rw [stays]
    · rw [runs,Function.update_of_ne other]
  have left : ∀ j, next.stage j = .establishing ↔ s.stage j = .establishing := by
    intro j
    rcases stage with stays | ⟨signalled,runs⟩
    · rw [stays]
    · rw [runs]
      rcases eq_or_ne j i with rfl | other
      · rw [Function.update_self,signalled]
        decide
      · rw [Function.update_of_ne other]
  have lasting : ∀ j, s.stage j = .running → next.stage j = .running := by
    intro j runs
    rcases stage with stays | ⟨signalled,_⟩
    · rw [stays]
      exact runs
    · rw [resting j fun same => by rw [same,signalled] at runs; cases runs]
      exact runs
  refine valid.acting servers resting same.id same.clients ?_ ?_ ?_ ?_ ?_ (lasting i) ?_ ?_
  · intro waits
    exact (valid.waiting i fun runs => waits (lasting i runs)).same same ballot
  · rw [same.signals,valid.signals i]
    simp only [left i]
  · rw [same.orders,valid.orders i]
    rcases stage with stays | ⟨signalled,_⟩
    · rw [stays]
    · have other : (configs i).serverId ≠ initialLeader := fun chosen => valid.leads i chosen signalled
      rw [if_neg (fun meets => other meets.2),if_neg (fun meets => other meets.2)]
  · intro chosen signalled
    rcases stage with stays | ⟨_,runs⟩
    · rw [stays] at signalled
      exact valid.leads i chosen signalled
    · rw [runs,Function.update_self] at signalled
      cases signalled
  · intro began
    obtain ⟨l,chosen,runs⟩ := valid.started i (fun waits => began ((left i).mpr waits))
    exact ⟨l,chosen,lasting l runs⟩
  · intro source place j time found
    rcases toCluster_cases servers sent found with found | ⟨_,_,new⟩
    · have began : next.stage j ≠ .establishing ↔ s.stage j ≠ .establishing := not_congr (left j)
      rw [grown,List.mem_append,began,←valid.arrived source place j time found]
      refine ⟨fun member => member.resolve_right fun extra => ?_,.inl⟩
      obtain ⟨k,m,sameSource,found',none⟩ := dull _ _ extra
      cases Fin.ext sameSource
      cases found'.symm.trans found
      cases none
    · cases silent _ new
  · intro source place member
    rw [grown] at member
    rcases List.mem_append.mp member with before | new
    · exact toCluster_longer servers sent (valid.bounded source place before)
    · obtain ⟨k,m,sameSource,found,_⟩ := dull _ _ new
      cases Fin.ext sameSource
      exact toCluster_longer servers sent (List.getElem?_eq_some_iff.mp found).1

-- Before the configured leader has started, nobody has.
theorem Valid.unstarted (valid : Valid configs initialLeader startTime s) (distinct : Function.Injective fun i => (configs i).serverId)
    (chosen : (configs i).serverId = initialLeader) (waits : s.stage i = .establishing) (j : Fin n) : s.stage j = .establishing := by
  by_contra began
  obtain ⟨l,chosen',runs⟩ := valid.started j began
  cases distinct (chosen'.trans chosen.symm)
  rw [waits] at runs
  cases runs

theorem Valid.retimed (valid : Valid configs initialLeader startTime s) (unstarted : ∀ j, s.stage j = .establishing) (time : Int) :
    Valid configs initialLeader time s := by
  refine ⟨valid.id,valid.clients,valid.waiting,fun j => ?_,fun j => ?_,valid.leads,valid.started,valid.arrived,valid.bounded⟩
  · rw [valid.signals j,if_pos (unstarted j),if_pos (unstarted j)]
  · have waits : s.stage j ≠ .running := fun runs => by rw [unstarted j] at runs; cases runs
    rw [valid.orders j,if_neg (fun meets => waits meets.1),if_neg (fun meets => waits meets.1)]

theorem handleLeader_first {s : SequencePaxos Command} {b : Ballot} (fresh : s.nLeader = {}) (unpromised : s.promise = {})
    (own : s.pid = b.pid) : (s.handleLeader {b with n:=s.promise.n+1}).promise = {b with n:=1} ∧
      (s.handleLeader {b with n:=s.promise.n+1}).role = .leader ∧ (s.handleLeader {b with n:=s.promise.n+1}).pid = s.pid ∧
      (s.handleLeader {b with n:=s.promise.n+1}).peers = s.peers := by
  have above : ¬ ({b with n:=1} : Ballot) ≤ {} := by
    intro below
    have less : (({} : Ballot) < {b with n:=1}) := by
      change Ballot.lt {} {b with n:=1} = true
      simp [Ballot.lt]
    cases below.symm.trans less
  rw [unpromised]
  unfold SequencePaxos.handleLeader
  rw [fresh,unpromised,if_neg (not_or.mpr ⟨above,above⟩),if_pos own]
  exact ⟨rfl,rfl,rfl,rfl⟩

theorem attempt_valid (valid : Valid configs initialLeader startTime s) (named : ∀ i, (configs i).serverId ≠ 0)
    (waits : s.stage i = .establishing) (chosen : (s.server i).id = initialLeader)
    (follows : (s.server i).omnipaxos.getCurrentLeader.map (·.1) ≠ some (s.server i).id) :
    Valid configs initialLeader startTime {s with
      cluster:=(s.cluster.updateServer i {s.server i with omnipaxos:=(s.server i).omnipaxos.tryBecomeLeader})} ∧
      ((s.server i).omnipaxos.tryBecomeLeader.seqPaxos.promise.pid = initialLeader) := by
  have resting : s.stage i ≠ .running := fun runs => by rw [waits] at runs; cases runs
  have waiting := valid.waiting i resting
  have own : (configs i).serverId = initialLeader := (valid.id i).symm.trans chosen
  rcases waiting.stands with ⟨unpromised,fresh,_⟩ | ⟨_,promised,_⟩
  · obtain ⟨promise,role,pid,peers⟩ := handleLeader_first fresh unpromised (waiting.pid.trans waiting.ballot.symm)
    have leads : (s.server i).omnipaxos.tryBecomeLeader.seqPaxos.promise.pid = initialLeader := by
      change ((s.server i).seqPaxos.handleLeader _).promise.pid = _
      rw [promise]
      exact waiting.ballot.trans own
    refine ⟨?_,leads⟩
    have cluster : ∀ source : Fin n, (Function.update s.cluster.servers i
        {s.server i with omnipaxos:=(s.server i).omnipaxos.tryBecomeLeader} source).toCluster =
        (s.server source).toCluster := by
      intro source
      rcases eq_or_ne source i with rfl | other
      · rw [Function.update_self]
      · rw [Function.update_of_ne other]
    refine valid.acting rfl (fun _ _ => rfl) rfl rfl (fun _ => ?_) (valid.signals i) (valid.orders i) (valid.leads i)
      (valid.started i) id ?_ ?_
    · refine ⟨pid.trans waiting.pid,peers.trans waiting.peers,waiting.ballot,.inr ⟨own,leads,role⟩⟩
    · intro source place j time found
      exact valid.arrived source place j time ((congrArg (·[place]?) (cluster source)).symm.trans found)
    · intro source place member
      exact (valid.bounded source place member).trans_eq (congrArg List.length (cluster source)).symm
  · refine absurd ?_ follows
    have nonzero : (s.server i).omnipaxos.seqPaxos.promise.pid ≠ 0 := by
      rw [promised,←own]
      exact named i
    rw [OmniPaxos.getCurrentLeader,if_neg nonzero,chosen]
    exact congrArg some promised

theorem lead_valid {next : Launch n} (valid : Valid configs initialLeader startTime s)
    (distinct : Function.Injective fun i => (configs i).serverId)
    (waits : s.stage i = .establishing) (chosen : (s.server i).id = initialLeader)
    (servers : next.cluster.servers = Function.update s.cluster.servers i
      (((s.server i).sendClusterStartSignals time).sendClientStartSignals time))
    (exchanged : next.cluster.exchanged = s.cluster.exchanged) (stage : next.stage = Function.update s.stage i .running) :
    Valid configs initialLeader time next := by
  have own : (configs i).serverId = initialLeader := (valid.id i).symm.trans chosen
  have unstarted := valid.unstarted distinct own waits
  have runs : next.stage i = .running := by rw [stage,Function.update_self]
  have sent : (((s.server i).sendClusterStartSignals time).sendClientStartSignals time).toCluster =
    (s.server i).toCluster++(s.server i).seqPaxos.peers.map fun peer => (peer,.leaderStartSignal time) := rfl
  have unsent : ∀ (source : Fin n) (place : Nat) (pid : NodeId) (time : Int),
      (s.server source).toCluster[place]? ≠ some (pid,.leaderStartSignal time) := by
    intro source place pid time found
    have running := (valid.sent found).1
    rw [unstarted source] at running
    cases running
  refine (valid.retimed unstarted time).acting servers (fun j other => ?_) rfl rfl (fun rests => absurd runs rests) ?_ ?_
    (fun _ signalled => ?_) (fun _ => ⟨i,own,runs⟩) (fun _ => runs) ?_ ?_
  · rw [stage,Function.update_of_ne other]
  · rw [signals_client]
    change signals (s.server i)++_ = _
    rw [valid.signals i,if_pos waits,runs,if_neg (by decide),List.nil_append]
    change (List.range (s.server i).numClients).map _ = _
    rw [valid.clients i]
    rfl
  · change orders ((s.server i).sendClusterStartSignals time) = _
    have resting : ¬ (s.stage i = .running ∧ (configs i).serverId = initialLeader) := fun meets => by
      rw [waits] at meets
      cases meets.1
    rw [orders_cluster,valid.orders i,if_neg resting,List.nil_append,if_pos ⟨runs,own⟩,
      (valid.waiting i fun running => by rw [waits] at running; cases running).peers]
  · rw [runs] at signalled
    cases signalled
  · intro source place j time' found
    rw [exchanged]
    rcases toCluster_cases servers sent found with found | ⟨rfl,beyond,new⟩
    · exact absurd found (unsent source place _ _)
    · obtain ⟨peer,listed,same⟩ := List.mem_map.mp new
      cases same
      rw [(valid.waiting source fun running => by rw [waits] at running; cases running).peers] at listed
      have apart : j ≠ source := by
        rintro rfl
        exact of_decide_eq_true (List.mem_filter.mp listed).2 rfl
      rw [stage,Function.update_of_ne apart]
      exact iff_of_false (fun member => absurd (valid.bounded source place member) (not_lt.mpr beyond))
        fun began => began (unstarted j)
  · intro source place member
    rw [exchanged] at member
    exact toCluster_longer servers sent (valid.bounded source place member)

theorem hear_valid {next : Launch n} (valid : Valid configs initialLeader startTime s)
    (distinct : Function.Injective fun i => (configs i).serverId) (listed : ∀ i, (configs i).nodes.Nodup)
    (message : (s.server source).toCluster[place]? = some ((s.server i).id,.leaderStartSignal time))
    (fresh : (source.val,place) ∉ s.cluster.exchanged)
    (servers : next.cluster.servers = Function.update s.cluster.servers i ((s.server i).sendClientStartSignals time))
    (exchanged : next.cluster.exchanged = s.cluster.exchanged++[(source.val,place)])
    (stage : next.stage = Function.update s.stage i (if s.stage i = .establishing then .signalled else s.stage i)) :
    Valid configs initialLeader startTime next := by
  rw [valid.id i] at message
  obtain ⟨running,chosen,peer,rfl⟩ := valid.sent message
  have apart : source ≠ i := by
    rintro rfl
    exact of_decide_eq_true (List.mem_filter.mp peer).2 rfl
  -- A signal that arrives for the first time finds the server in its first loop.
  have waits : s.stage i = .establishing := by
    by_contra began
    exact fresh ((valid.arrived source place i _ message).mpr began)
  rw [waits,if_pos rfl] at stage
  have signalled : next.stage i = .signalled := by rw [stage,Function.update_self]
  have resting : s.stage i ≠ .running := fun runs => by rw [waits] at runs; cases runs
  have cluster := toCluster_kept servers rfl
  refine valid.acting servers (fun j other => ?_) rfl rfl (fun _ => ?_) ?_ ?_ (fun own => ?_) (fun _ => ⟨source,chosen,?_⟩)
    (fun runs => absurd runs resting) ?_ ?_
  · rw [stage,Function.update_of_ne other]
  · have waiting := valid.waiting i resting
    exact ⟨waiting.pid,waiting.peers,waiting.ballot,waiting.stands⟩
  · rw [signals_client,valid.signals i,if_pos waits,signalled,if_neg (by decide),List.nil_append,valid.clients i]
    rfl
  · change orders (s.server i) = _
    rw [valid.orders i,if_neg (fun meets => resting meets.1),if_neg fun meets => by rw [signalled] at meets; cases meets.1]
  · exact absurd (distinct (chosen.trans own.symm)) apart
  · rw [stage,Function.update_of_ne apart]
    exact running
  · intro source' place' j time' found
    rw [cluster source'] at found
    rw [exchanged,List.mem_append,List.mem_singleton]
    rcases eq_or_ne j i with rfl | other
    · obtain ⟨rfl,rfl⟩ := valid.places listed distinct found message
      exact iff_of_true (.inr rfl) fun waits => by rw [signalled] at waits; cases waits
    · rw [stage,Function.update_of_ne other,←valid.arrived source' place' j time' found]
      refine ⟨fun member => member.resolve_right fun same => ?_,.inl⟩
      obtain ⟨sameSource,rfl⟩ := Prod.mk.inj same
      cases Fin.ext sameSource
      rw [message] at found
      have receiver : (configs i).serverId = (configs j).serverId := congrArg Prod.fst (Option.some.inj found)
      exact other (distinct receiver.symm)
  · intro source' place' member
    rw [cluster source']
    rw [exchanged] at member
    rcases List.mem_append.mp member with before | new
    · exact valid.bounded source' place' before
    · obtain ⟨sameSource,rfl⟩ := Prod.mk.inj (List.mem_singleton.mp new)
      cases Fin.ext sameSource
      exact (List.getElem?_eq_some_iff.mp message).1

theorem tick_valid {next : Launch n} (valid : Valid configs initialLeader startTime s) (runs : s.stage i = .running)
    (servers : next.cluster.servers = Function.update s.cluster.servers i
      {s.server i with omnipaxos:=(s.server i).omnipaxos.tick})
    (exchanged : next.cluster.exchanged = s.cluster.exchanged) (stage : next.stage = s.stage) :
    Valid configs initialLeader startTime next := by
  have cluster := toCluster_kept servers rfl
  refine valid.acting servers (fun j _ => by rw [stage]) rfl rfl (fun rests => ?_) ?_ ?_ ?_ ?_ ?_ ?_ ?_ <;> rw [stage] at *
  · exact absurd runs rests
  · exact valid.signals i
  · exact valid.orders i
  · exact valid.leads i
  · exact valid.started i
  · exact id
  · intro source place j time found
    rw [cluster source] at found
    rw [exchanged]
    exact valid.arrived source place j time found
  · intro source place member
    rw [exchanged] at member
    rw [cluster source]
    exact valid.bounded source place member

theorem step_valid {next : Launch n} (distinct : Function.Injective fun i => (configs i).serverId)
    (named : ∀ i, (configs i).serverId ≠ 0) (listed : ∀ i, (configs i).nodes.Nodup)
    (valid : ∃ startTime, Valid configs initialLeader startTime s) (ran : step hasher initialLeader s action = some next) :
    ∃ startTime, Valid configs initialLeader startTime next := by
  obtain ⟨startTime,valid⟩ := valid
  cases step_moves ran with
  | rest servers exchanged stage =>
    obtain ⟨⟨_,_,_,_,_,_⟩,_⟩ := next
    cases servers
    cases exchanged
    cases stage
    exact ⟨startTime,valid.id,valid.clients,valid.waiting,valid.signals,valid.orders,valid.leads,valid.started,
      valid.arrived,valid.bounded⟩
  | attempt i waits chosen follows acts =>
    rw [acts]
    exact ⟨startTime,(attempt_valid valid named waits chosen follows).1⟩
  | lead i time waits chosen _ acts =>
    rw [acts]
    exact ⟨time,lead_valid valid distinct waits chosen rfl rfl rfl⟩
  | hear i source place time message fresh servers exchanged stage =>
    exact ⟨startTime,hear_valid valid distinct listed message fresh servers exchanged stage⟩
  | keep i server same ballot servers exchanged stage =>
    exact ⟨startTime,keep_valid valid same ballot servers exchanged stage⟩
  | tick i runs servers exchanged stage => exact ⟨startTime,tick_valid valid runs servers exchanged stage⟩

theorem start_valid {times : Fin n → SystemTime} (created : Cluster.new configs times faultTolerance = some c) :
    Valid configs initialLeader startTime (start c) := by
  rw [Cluster.new_eq created]
  refine ⟨fun _ => rfl,fun _ => rfl,fun _ _ => ⟨rfl,rfl,rfl,.inl ⟨rfl,rfl,rfl⟩⟩,fun _ => rfl,fun _ => rfl,?_,?_,?_,?_⟩
  · intro i _ signalled
    cases signalled
  · intro i began
    exact absurd rfl began
  · intro source place i time found
    cases found
  · intro source place member
    cases member

theorem running_kept {next : Launch n} (ran : step hasher initialLeader s action = some next) (runs : s.stage i = .running) :
    next.stage i = .running := by
  have updated : ∀ (j : Fin n) (stage : Stage), (j = i → stage = .running) → Function.update s.stage j stage i = .running := by
    intro j stage same
    rcases eq_or_ne i j with rfl | other
    · rw [Function.update_self]
      exact same rfl
    · rw [Function.update_of_ne other]
      exact runs
  cases step_moves ran with
  | rest _ _ stage => rw [stage]; exact runs
  | attempt j _ _ _ acts => rw [acts]; exact runs
  | lead j _ _ _ _ acts => rw [acts]; exact updated j _ fun _ => rfl
  | hear j _ _ _ _ _ _ _ stage =>
    rw [stage]
    refine updated j _ ?_
    rintro rfl
    rw [runs]
    rfl
  | keep j _ _ _ _ _ stage =>
    rcases stage with stays | ⟨_,goes⟩
    · rw [stays]; exact runs
    · rw [goes]; exact updated j _ fun _ => rfl
  | tick _ _ _ _ stage => rw [stage]; exact runs

section Progress
variable (hasher initialLeader)

-- A step that leaves every main loop ready for the next message.
def Calmly (s : Launch n) (action : Act n) : Prop :=
  ∀ next, step hasher initialLeader s action = some next → ∀ i, (next.server i).mainLoop = .idle

variable {hasher initialLeader}

theorem calmly_updated {next : Launch n} {server : Server} (idle : ∀ j, (s.server j).mainLoop = .idle)
    (ran : step hasher initialLeader s action = some next)
    (servers : next.cluster.servers = Function.update s.cluster.servers i server) (ready : server.mainLoop = .idle) :
    Calmly hasher initialLeader s action := by
  intro other same j
  cases Option.some.inj (ran.symm.trans same)
  rw [Launch.server,servers]
  rcases eq_or_ne j i with rfl | apart
  · rw [Function.update_self]
    exact ready
  · rw [Function.update_of_ne apart]
    exact idle j

theorem attempt_ran (hasher : List UInt8 → UInt64) (time : Int) (idle : (s.server i).mainLoop = .idle) (waits : s.stage i = .establishing)
    (chosen : (s.server i).id = initialLeader)
    (follows : (s.server i).omnipaxos.getCurrentLeader.map (·.1) ≠ some (s.server i).id) :
    step hasher initialLeader s (.lead i time) = some {s with
      cluster:=(s.cluster.updateServer i {s.server i with omnipaxos:=(s.server i).omnipaxos.tryBecomeLeader})} := by
  simp only [step,if_pos (And.intro waits chosen),if_neg follows,Server.step,if_pos idle,Option.map_some]

theorem lead_ran (hasher : List UInt8 → UInt64) (time : Int) (idle : (s.server i).mainLoop = .idle) (waits : s.stage i = .establishing)
    (chosen : (s.server i).id = initialLeader)
    (leads : (s.server i).omnipaxos.getCurrentLeader.map (·.1) = some (s.server i).id) :
    step hasher initialLeader s (.lead i time) = some
      ⟨s.cluster.updateServer i (((s.server i).sendClusterStartSignals time).sendClientStartSignals time),
        Function.update s.stage i .running⟩ := by
  simp only [step,if_pos (And.intro waits chosen),if_pos leads,Server.step,if_pos idle,Option.map_some]

theorem hear_ran (hasher : List UInt8 → UInt64) (initialLeader : NodeId) (idle : (s.server i).mainLoop = .idle) (waits : s.stage i = .establishing)
    (message : (s.server source).toCluster[place]? = some ((s.server i).id,.leaderStartSignal time))
    (fresh : (source.val,place) ∉ s.cluster.exchanged) :
    step hasher initialLeader s (.other (.exchange source place i)) = some
      ⟨{s.cluster.updateServer i ((s.server i).sendClientStartSignals time) with
          exchanged:=s.cluster.exchanged++[(source.val,place)]},Function.update s.stage i .signalled⟩ := by
  have acting : performs s.cluster (.exchange source place i) = some (i,.cluster (.leaderStartSignal time)) := by
    rw [performs,message]
    rfl
  simp only [step,acting,Stage.permits,if_true,Cluster.step,message,true_and]
  rw [if_pos fresh]
  simp only [Server.step,if_pos idle,Option.map_some,Stage.after,waits,if_true]
  rfl

theorem send_ran (hasher : List UInt8 → UInt64) (initialLeader : NodeId) (idle : (s.server i).mainLoop = .idle) (signalled : s.stage i = .signalled) :
    step hasher initialLeader s (.other (.server i .send)) = some
      ⟨s.cluster.updateServer i (s.server i).sendOutgoingMsgs,Function.update s.stage i .running⟩ := by
  simp only [step,performs,Stage.permits,if_true,Cluster.step,Cluster.serverInternal,Server.step,if_pos idle,
    Option.map_some,Stage.after,signalled]

theorem current_leader {s : OmniPaxos Command} (named : initialLeader ≠ 0) (promised : s.seqPaxos.promise.pid = initialLeader) :
    s.getCurrentLeader.map (·.1) = some initialLeader := by
  rw [OmniPaxos.getCurrentLeader,if_neg (promised ▸ named)]
  exact congrArg some promised

-- The configured leader needs one try.
theorem leader_starts (valid : Valid configs initialLeader startTime s) (named : ∀ i, (configs i).serverId ≠ 0)
    (idle : ∀ j, (s.server j).mainLoop = .idle) (chosen : (configs i).serverId = initialLeader)
    (waits : s.stage i = .establishing) :
    ∃ actions next, Runs (step hasher initialLeader) (Calmly hasher initialLeader) s actions next ∧ next.stage i = .running := by
  have own : (s.server i).id = initialLeader := (valid.id i).trans chosen
  by_cases leads : (s.server i).omnipaxos.getCurrentLeader.map (·.1) = some (s.server i).id
  · have ran := lead_ran hasher 0 (idle i) waits own leads
    exact ⟨_,_,.snoc .nil (calmly_updated idle ran rfl (idle i)) ran,Function.update_self ..⟩
  · have tried := attempt_ran hasher 0 (idle i) waits own leads
    have promised := (attempt_valid valid named waits own leads).2
    generalize next_ : ({s with cluster:=(s.cluster.updateServer i
      {s.server i with omnipaxos:=(s.server i).omnipaxos.tryBecomeLeader})} : Launch n) = next at tried
    have here : next.server i = {s.server i with omnipaxos:=(s.server i).omnipaxos.tryBecomeLeader} := by
      rw [←next_]
      exact Function.update_self ..
    have stage : next.stage = s.stage := by rw [←next_]
    have ready : ({s.server i with omnipaxos:=(s.server i).omnipaxos.tryBecomeLeader} : Server).mainLoop = .idle := idle i
    have calm := calmly_updated idle tried (by rw [←next_]; rfl) ready
    have waits' : next.stage i = .establishing := by rw [stage]; exact waits
    have own' : (next.server i).id = initialLeader := by rw [here]; exact own
    have leads' : (next.server i).omnipaxos.getCurrentLeader.map (·.1) = some (next.server i).id := by
      rw [own',here]
      exact current_leader (chosen ▸ named i) promised
    have ran := lead_ran hasher 0 (calm next tried i) waits' own' leads'
    exact ⟨_,_,.snoc (.snoc .nil calm tried) (calmly_updated (calm next tried) ran rfl (calm next tried i)) ran,
      Function.update_self ..⟩

-- A server that waits has its start signal under way.
theorem follower_starts (valid : Valid configs initialLeader startTime s)
    (distinct : Function.Injective fun i => (configs i).serverId) (complete : ∀ i j, (configs j).serverId ∈ (configs i).nodes)
    (idle : ∀ j, (s.server j).mainLoop = .idle) (chosen : (configs source).serverId = initialLeader)
    (leads : s.stage source = .running) (i : Fin n) :
    ∃ actions next, Runs (step hasher initialLeader) (Calmly hasher initialLeader) s actions next ∧ next.stage i = .running := by
  cases stage : s.stage i with
  | running => exact ⟨[],s,.nil,stage⟩
  | signalled =>
    have ran := send_ran hasher initialLeader (idle i) stage
    exact ⟨_,_,.snoc .nil (calmly_updated idle ran rfl (idle i)) ran,Function.update_self ..⟩
  | establishing =>
    have apart : i ≠ source := by
      rintro rfl
      rw [leads] at stage
      cases stage
    have peer : (configs i).serverId ∈ peersOf (configs source) :=
      List.mem_filter.mpr ⟨complete source i,decide_eq_true fun same => apart (distinct same)⟩
    have ordered : ((configs i).serverId,startTime) ∈ orders (s.server source) := by
      rw [valid.orders source,if_pos ⟨leads,chosen⟩]
      exact List.mem_map_of_mem peer
    obtain ⟨⟨pid,m⟩,sent,order⟩ := List.mem_filterMap.mp ordered
    obtain ⟨place,message⟩ := List.getElem?_of_mem sent
    obtain ⟨rfl,rfl⟩ : pid = (configs i).serverId ∧ m = .leaderStartSignal startTime := by
      cases m with
      | omniPaxosMessage => cases order
      | leaderStartSignal => cases order; exact ⟨rfl,rfl⟩
    have fresh : (source.val,place) ∉ s.cluster.exchanged := fun member =>
      (valid.arrived source place i startTime message).mp member stage
    rw [←valid.id i] at message
    have heard := hear_ran hasher initialLeader (idle i) stage message fresh
    have calm := calmly_updated idle heard rfl (idle i)
    have ready := calm _ heard
    have ran := send_ran hasher initialLeader (ready i) (Function.update_self ..)
    exact ⟨_,_,.snoc (.snoc .nil calm heard) (calmly_updated ready ran rfl (ready i)) ran,Function.update_self ..⟩

end Progress

-- The start of a cluster, in every interleaving. All start signals, to clients and to
-- servers, carry one start time: every client of a server gets exactly one when that
-- server starts, and every peer of the leader one when the leader does. No server starts
-- before the configured leader, which leads, as the only one, when it does; and as long
-- as no main loop is stuck all servers can still start.
theorem servers_start {n : Nat} (hasher : List UInt8 → UInt64) (initialLeader : NodeId) (configs : Fin n → ServerConfig)
    (times : Fin n → SystemTime) (faultTolerance : Nat) (c : Cluster n)
    (created : Cluster.new configs times faultTolerance = some c)
    (distinct : Function.Injective fun i => (configs i).serverId) (named : ∀ i, (configs i).serverId ≠ 0)
    (listed : ∀ i, (configs i).nodes.Nodup) (complete : ∀ i j, (configs j).serverId ∈ (configs i).nodes)
    (actions : List (Act n)) (s : Launch n) (path : Runs (step hasher initialLeader) (fun _ _ => True) (start c) actions s) :
    (∃ startTime, ∀ i,
      signals (s.server i) = (if s.stage i = .establishing then [] else startSignals (configs i) startTime) ∧
      orders (s.server i) = if s.stage i = .running ∧ (configs i).serverId = initialLeader then
        (peersOf (configs i)).map (·,startTime) else []) ∧
    (∀ i, s.stage i ≠ .establishing → ∃ l, (configs l).serverId = initialLeader ∧ s.stage l = .running) ∧
    (∀ i startTime next, step hasher initialLeader s (.lead i startTime) = some next → next.stage i = .running →
      (s.server i).role = .leader ∧ ∀ j, j ≠ i → s.stage j = .establishing ∧ (s.server j).role = .follower) ∧
    ((∀ i, (s.server i).mainLoop = .idle) → (∃ l, (configs l).serverId = initialLeader) →
      ∃ later final, Runs (step hasher initialLeader) (fun _ _ => True) s later final ∧ ∀ i, final.stage i = .running) := by
  have reached := path.invariant (fun s => ∃ startTime, Valid configs initialLeader startTime s)
    (fun _ _ _ valid _ ran => step_valid distinct named listed valid ran) ⟨0,start_valid created⟩
  obtain ⟨startTime,valid⟩ := reached
  refine ⟨⟨startTime,fun i => ⟨valid.signals i,valid.orders i⟩⟩,valid.started,?_,?_⟩
  · intro i time next ran runs
    obtain ⟨waits,chosen,leads⟩ := lead_starts ran runs
    have own : (configs i).serverId = initialLeader := (valid.id i).symm.trans chosen
    have unstarted := valid.unstarted distinct own waits
    have waiting : ∀ j, Waiting (configs j) initialLeader (s.server j) := fun j =>
      valid.waiting j fun running => by rw [unstarted j] at running; cases running
    refine ⟨?_,fun j other => ⟨unstarted j,?_⟩⟩
    · rcases (waiting i).stands with ⟨unpromised,_,_⟩ | ⟨_,_,role⟩
      · rw [OmniPaxos.getCurrentLeader,if_pos (congrArg Ballot.pid unpromised)] at leads
        cases leads
      · exact role
    · rcases (waiting j).stands with ⟨_,_,role⟩ | ⟨chosen',_,_⟩
      · exact role
      · exact absurd (distinct (chosen'.trans own.symm)) other
  · intro idle someone
    obtain ⟨l,chosen⟩ := someone
    have preserved : ∀ (s : Launch n) action next, (∃ startTime, Valid configs initialLeader startTime s) ∧
        (∀ i, (s.server i).mainLoop = .idle) → Calmly hasher initialLeader s action →
        step hasher initialLeader s action = some next →
        (∃ startTime, Valid configs initialLeader startTime next) ∧ ∀ i, (next.server i).mainLoop = .idle :=
      fun s action next held calm ran => ⟨step_valid distinct named listed held.1 ran,calm next ran⟩
    obtain ⟨first,led,path',leads⟩ : ∃ first led, Runs (step hasher initialLeader) (Calmly hasher initialLeader) s first led ∧
        led.stage l = .running := by
      cases stage : s.stage l with
      | running => exact ⟨[],s,.nil,stage⟩
      | signalled => exact absurd stage (valid.leads l chosen)
      | establishing => exact leader_starts valid named idle chosen stage
    have held := path'.invariant _ preserved ⟨⟨startTime,valid⟩,idle⟩
    obtain ⟨later,final,path'',_,all⟩ := Runs.traverse
      (fun s => ((∃ startTime, Valid configs initialLeader startTime s) ∧ ∀ i, (s.server i).mainLoop = .idle) ∧
        s.stage l = .running)
      (fun i s => s.stage i = .running) (List.finRange n)
      (fun s action next held calm ran => ⟨preserved s action next held.1 calm ran,running_kept ran held.2⟩)
      (fun i s action next _ ran runs => running_kept ran runs)
      (fun i _ s held => by
        obtain ⟨⟨⟨time,known⟩,ready⟩,running⟩ := held
        exact follower_starts known distinct complete ready chosen running i) ⟨held,leads⟩
    exact ⟨first++later,final,(path'.append path'').weaken fun _ _ _ => trivial,fun i => all i (List.mem_finRange i)⟩

def sampleNodes : List NodeId := [1,2,3]

def sampleConfig (i : Fin sampleNodes.length) : ServerConfig :=
  {serverId:=i.val+1,nodes:=sampleNodes,numClients:=2}

def sampleCluster : Cluster sampleNodes.length where
  servers i := .new (sampleConfig i) 0
  proxy := {servers:=3,db:={quorum:=2}}

def sampleFirst : Fin sampleNodes.length := ⟨0,by decide⟩
def sampleSecond : Fin sampleNodes.length := ⟨1,by decide⟩

-- The first server takes the lead and starts, and the second hears of it.
def sampleActions : List (Act sampleNodes.length) :=
  [.lead sampleFirst 7,.lead sampleFirst 7,.other (.exchange sampleFirst 0 sampleSecond)]

theorem servers_start_sample : ∃ s, Runs (step SipHash.hash 1) (fun _ _ => True) (start sampleCluster) sampleActions s ∧
    s.stage sampleSecond = .signalled ∧
    (∃ startTime, ∀ i,
      signals (s.server i) = (if s.stage i = .establishing then [] else startSignals (sampleConfig i) startTime) ∧
      orders (s.server i) = if s.stage i = .running ∧ (sampleConfig i).serverId = 1 then
        (peersOf (sampleConfig i)).map (·,startTime) else []) ∧
    ∃ later final, Runs (step SipHash.hash 1) (fun _ _ => True) s later final ∧ ∀ i, final.stage i = .running := by
  obtain ⟨s,path,signalled,idle⟩ := run_reaches (step SipHash.hash 1) (fun _ _ => True)
    (fun s => s.stage sampleSecond = .signalled ∧ ∀ i, (s.server i).mainLoop = .idle) (start sampleCluster) sampleActions
    (by decide +kernel)
  obtain ⟨times,_,_,progress⟩ := servers_start SipHash.hash 1 sampleConfig (fun _ => 0) 1 sampleCluster rfl (by decide)
    (by decide) (by decide) (by decide) sampleActions s path
  exact ⟨s,path,signalled,times,progress idle ⟨sampleFirst,rfl⟩⟩

end Launch
end OmniPaxosKV

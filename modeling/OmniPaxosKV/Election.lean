import OmniPaxosKV.Storage

namespace OmniPaxosKV

inductive Phase where
  | prepare | accept | recover | none
  deriving DecidableEq, Repr

inductive Role where
  | follower | leader
  deriving DecidableEq, Repr

inductive Quorum where
  | majority (size : Nat)
  | flexible (quorum : FlexibleQuorum)
  deriving DecidableEq, Repr

namespace Quorum

def new (config : Option FlexibleQuorum) (numNodes : Nat) : Quorum :=
  match config with
  | some quorum => .flexible quorum
  | none => .majority (numNodes/2+1)

def isPrepareQuorum : Quorum → Nat → Bool
  | .majority size,numNodes => decide (size ≤ numNodes)
  | .flexible quorum,numNodes => decide (quorum.readQuorumSize ≤ numNodes)

def isAcceptQuorum : Quorum → Nat → Bool
  | .majority size,numNodes => decide (size ≤ numNodes)
  | .flexible quorum,numNodes => decide (quorum.writeQuorumSize ≤ numNodes)

end Quorum

structure HeartbeatReply where
  round : Nat
  ballot : Ballot
  leader : Ballot
  happy : Bool
  deriving DecidableEq, Repr

inductive HeartbeatMsg where
  | request (round : Nat)
  | reply (reply : HeartbeatReply)
  deriving DecidableEq, Repr

structure BLEMessage where
  sender : NodeId
  receiver : NodeId
  msg : HeartbeatMsg
  deriving DecidableEq, Repr

structure BLEConfig where
  configurationId : Nat
  pid : NodeId
  peers : List NodeId
  priority : Nat
  flexibleQuorum : Option FlexibleQuorum

structure BallotLeaderElection where
  configurationId : Nat
  pid : NodeId
  peers : List NodeId
  hbRound : Nat
  heartbeatReplies : List HeartbeatReply
  currentBallot : Ballot
  leader : Ballot
  happy : Bool
  quorum : Quorum
  outgoing : List BLEMessage

namespace BallotLeaderElection

def newHbRound (s : BallotLeaderElection) : BallotLeaderElection :=
  {s with
    heartbeatReplies:=[]
    hbRound:=s.hbRound+1
    outgoing:=s.outgoing++s.peers.map fun peer => ⟨s.pid,peer,.request (s.hbRound+1)⟩}

-- A recovered promise becomes the leader, and the own ballot starts below it.
def new (config : BLEConfig) (recoveredLeader : Option Ballot) : BallotLeaderElection :=
  let initial : Ballot := ⟨config.configurationId,1,config.priority,config.pid⟩
  let (current,leader) := match recoveredLeader with
    | some b => if b = ({} : Ballot) then (initial,initial) else ({initial with n:=0},b)
    | none => (initial,initial)
  newHbRound {
    configurationId:=config.configurationId
    pid:=config.pid
    peers:=config.peers
    hbRound:=0
    heartbeatReplies:=[]
    currentBallot:=current
    leader:=leader
    happy:=true
    quorum:=.new config.flexibleQuorum (config.peers.length+1)
    outgoing:=[]}

def setPriority (s : BallotLeaderElection) (p : Nat) : BallotLeaderElection :=
  {s with currentBallot:={s.currentBallot with priority:=p}}

-- The last of the greatest ballots, as an iterator's `max` picks it.
def maxBallot : List Ballot → Option Ballot
  | [] => none
  | b::rest => some (rest.foldl (fun best next => if next < best then best else next) b)

def updateLeader (s : BallotLeaderElection) : BallotLeaderElection :=
  match maxBallot (s.heartbeatReplies.map (·.ballot)) with
  | none => s
  | some max => if s.leader < max then {s with leader:=max} else s

def updateHappiness (s : BallotLeaderElection) (state : Role × Phase) : BallotLeaderElection :=
  let happy :=
    if s.leader = s.currentBallot then
      let followers := (s.heartbeatReplies.filter fun r => decide (r.leader ≤ s.currentBallot)).length
      let canFormQuorum := match state with
        | (.leader,.accept) => s.quorum.isAcceptQuorum (followers+1)
        | _ => s.quorum.isPrepareQuorum (followers+1)
      canFormQuorum || s.heartbeatReplies.any fun r => decide (s.currentBallot < r.leader) && r.happy
    else s.heartbeatReplies.any fun r => decide (r.ballot = s.leader) && r.happy
  {s with happy:=happy}

def checkTakeover (s : BallotLeaderElection) : BallotLeaderElection :=
  if !s.happy && (s.heartbeatReplies.all fun r => !r.happy) &&
      s.quorum.isPrepareQuorum (s.heartbeatReplies.length+1) then
    let ballot := {s.currentBallot with n:=s.leader.n+1}
    {s with currentBallot:=ballot,leader:=ballot,happy:=true}
  else s

-- A promise above the elected leader is adopted, as the own ballot if it is one.
def adoptPromise (s : BallotLeaderElection) (promise : Ballot) : BallotLeaderElection :=
  if s.leader < promise then
    {s with leader:=promise,happy:=true,currentBallot:=if promise.pid = s.pid then promise else s.currentBallot}
  else s

def hbTimeout (s : BallotLeaderElection) (state : Role × Phase) (promise : Ballot) :
    Option Ballot × BallotLeaderElection :=
  let s := (((s.updateLeader.updateHappiness state).checkTakeover).newHbRound).adoptPromise promise
  (if s.leader = s.currentBallot then some s.currentBallot else none,s)

def handle (s : BallotLeaderElection) (m : BLEMessage) : BallotLeaderElection :=
  match m.msg with
  | .request round =>
    {s with outgoing:=s.outgoing++[⟨s.pid,m.sender,.reply ⟨round,s.currentBallot,s.leader,s.happy⟩⟩]}
  | .reply reply =>
    if reply.round = s.hbRound ∧ reply.ballot.configId = s.configurationId then
      {s with heartbeatReplies:=s.heartbeatReplies++[reply]}
    else s

end BallotLeaderElection
end OmniPaxosKV

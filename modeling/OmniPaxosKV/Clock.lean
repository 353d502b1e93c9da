import OmniPaxosKV.BinaryHeap
import OmniPaxosKV.Command

namespace OmniPaxosKV

-- One end of a oneshot channel; the two ends are told by who holds the number.
abbrev Channel := Nat

-- The simulated clock. Its offset and identity are never read.
structure ClockState where
  master : NodeId
  drift : Duration
  uncertainty : Duration
  syncFreq : Nat
  logicalTime : SystemTime
  counter : Nat := 0
  deadlines : List SystemTime := []
  database : KeyMap SystemTime Channel := .empty
  masterTime : List SystemTime := []

namespace ClockState

-- `now` is what the system clock says when the replica starts.
def new (master : NodeId) (drift uncertainty : Duration) (syncFreq : Nat) (now : SystemTime) : ClockState :=
  {master:=master,drift:=drift,uncertainty:=uncertainty,syncFreq:=syncFreq,logicalTime:=now}

-- `Reverse` makes the earliest deadline the greatest.
def reverseLe (a b : SystemTime) : Bool := decide (b ≤ a)

-- The tick loop stops at the first deadline that is not strictly in the past.
-- A deadline whose sender is gone is popped all the same. Each sender that is found
-- goes to a task of its own, which notifies its channel.
def processDeadlines : Nat → ClockState → ClockState × List Channel
  | 0,c => (c,[])
  | fuel+1,c =>
    match BinaryHeap.pop reverseLe c.deadlines with
    | none => (c,[])
    | some (deadline,rest) =>
      if deadline < c.logicalTime then
        let sender := c.database deadline
        let (c,fired) := processDeadlines fuel
          {c with deadlines:=rest,database:=c.database.remove deadline}
        (c,sender.toList++fired)
      else (c,[])

-- One iteration of the tick loop: the channels to notify, and whether a sync starts.
def tick (c : ClockState) (fast : Bool) : ClockState × List Channel × Bool :=
  let step := Duration.fromMillis 1
  let elapsed := if fast then step+c.drift else step-c.drift
  let (c,fired) := processDeadlines c.deadlines.length
    {c with counter:=c.counter+1,logicalTime:=c.logicalTime+elapsed}
  if c.syncFreq ≤ c.counter then ({c with counter:=0},fired,true) else (c,fired,false)

def newDeadline (c : ClockState) : SystemTime := c.logicalTime+Duration.fromMillis 20

def getUncertainty (c : ClockState) : Duration := c.uncertainty+c.counter*c.drift

def resync (c : ClockState) (realTime : SystemTime) : ClockState :=
  {c with logicalTime:=realTime,counter:=0,uncertainty:=0}

-- A second registration of one time drops the sender of the first.
def addDeadline (c : ClockState) (deadline : SystemTime) (tx : Channel) : ClockState × Option Channel :=
  ({c with deadlines:=BinaryHeap.push reverseLe c.deadlines deadline,
           database:=c.database.insert deadline tx},c.database deadline)

end ClockState
end OmniPaxosKV

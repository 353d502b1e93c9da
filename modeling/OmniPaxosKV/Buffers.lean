import OmniPaxosKV.Clock
import OmniPaxosKV.Machine

namespace OmniPaxosKV

-- Requests compare by deadline alone, the earliest first.
def storedRequestLe [Request R] (a b : R) : Bool := decide (Request.getDeadline b ≤ Request.getDeadline a)

structure Buffers (R : Type) where
  early : List R := []
  notifiers : KeyMap Nat Channel := .empty
  late : KeyMap Nat R := .empty
  lastReleasedDeadline : Option SystemTime := none

namespace Buffers
variable {R : Type} [Request R]

def push (b : Buffers R) (r : R) : Buffers R := {b with early:=BinaryHeap.push storedRequestLe b.early r}

def eligible (b : Buffers R) (r : R) : Bool :=
  match b.lastReleasedDeadline with
  | none => true
  | some last => decide (last < Request.getDeadline r)

def freeFromLate (b : Buffers R) (id : Nat) (newDeadline : SystemTime) : Buffers R :=
  match b.late id with
  | none => b
  | some r => {b with late:=b.late.remove id}.push (Request.setDeadline r newDeadline)

-- `now` is what the clock answers to `new_deadline` while the buffers are locked.
def insert (b : Buffers R) (tx : Channel) (r : R) (imLeader : Bool) (now : SystemTime) :
    Buffers R × Option SystemTime :=
  let stored := {b with notifiers:=b.notifiers.insert (Request.getId r) tx}
  if stored.eligible r then (stored.push r,none)
  else if imLeader then (stored.push (Request.setDeadline r now),some now)
  else ({stored with late:=stored.late.insert (Request.getId r) r},none)

-- The waiter's locked section: the next request and the sender kept for it.
def pop (b : Buffers R) : Option (R × Option Channel × Buffers R) :=
  match BinaryHeap.pop storedRequestLe b.early with
  | none => none
  | some (req,rest) => some (req,b.notifiers (Request.getId req),
      {b with early:=rest,notifiers:=b.notifiers.remove (Request.getId req),
              lastReleasedDeadline:=some (Request.getDeadline req)})

end Buffers

-- Where the waiter task stands: about to pop, holding a popped request, or
-- blocked on the clock for it.
inductive Waiter (R : Type) where
  | idle
  | popped (sender : Option Channel) (req : R)
  | waiting (sender : Option Channel) (req : R) (notifier : Channel)

-- The buffers, the clock and the waiter of one replica: three tasks around two
-- locks. `released` lists what the waiter sent through the notifiers, in order;
-- `fired` and `dropped` are the other oneshot channels that have been settled.
structure Queue (R : Type) where
  buffers : Buffers R := {}
  clock : ClockState
  waiter : Waiter R := .idle
  released : List (Channel × R) := []
  fired : List Channel := []
  dropped : List Channel := []
  nextChannel : Channel := 0

namespace Queue
variable {R : Type} [Request R]

-- Returns the receiving end and the deadline the leader chose, if it chose one.
def insert (q : Queue R) (r : R) (imLeader : Bool) : Queue R × Channel × Option SystemTime :=
  let (buffers,newDeadline) := q.buffers.insert q.nextChannel r imLeader q.clock.newDeadline
  ({q with buffers:=buffers,nextChannel:=q.nextChannel+1,
           dropped:=q.dropped++(q.buffers.notifiers (Request.getId r)).toList},q.nextChannel,newDeadline)

def freeFromLate (q : Queue R) (id : Nat) (newDeadline : SystemTime) : Queue R :=
  {q with buffers:=q.buffers.freeFromLate id newDeadline}

theorem freeFromLate_none {q : Queue R} (absent : q.buffers.late key = none) : q.freeFromLate key newDeadline = q := by
  simp only [freeFromLate,Buffers.freeFromLate,absent]

theorem freeFromLate_some {q : Queue R} (parked : q.buffers.late key = some r) : q.freeFromLate key newDeadline =
    {q with buffers:={q.buffers with late:=q.buffers.late.remove key}.push (Request.setDeadline r newDeadline)} := by
  simp only [freeFromLate,Buffers.freeFromLate,parked]

theorem freeFromLate_notifiers (q : Queue R) (key : Nat) (newDeadline : SystemTime) :
    (q.freeFromLate key newDeadline).buffers.notifiers = q.buffers.notifiers := by
  cases parked : q.buffers.late key with
  | none => rw [freeFromLate_none parked]
  | some r => rw [freeFromLate_some parked]; rfl

-- One atomic step of the waiter; none while it has nothing to do but wait.
def wait (q : Queue R) : Option (Queue R) :=
  match q.waiter with
  | .idle =>
    match q.buffers.pop with
    | none => none
    | some (req,sender,buffers) => some {q with buffers:=buffers,waiter:=.popped sender req}
  | .popped sender req =>
    let (clock,overwritten) := q.clock.addDeadline (Request.getDeadline req) q.nextChannel
    some {q with clock:=clock,waiter:=.waiting sender req q.nextChannel,
                 nextChannel:=q.nextChannel+1,dropped:=q.dropped++overwritten.toList}
  | .waiting sender req notifier =>
    if notifier ∈ q.fired then
      match sender with
      | some tx => some {q with waiter:=.idle,released:=q.released++[(tx,req)]}
      | none => some {q with waiter:=.idle}
    else if notifier ∈ q.dropped then
      some {q with waiter:=.idle,dropped:=q.dropped++sender.toList}
    else none

def tick (q : Queue R) (fast : Bool) : Queue R × Bool :=
  let (clock,fired,doSync) := q.clock.tick fast
  ({q with clock:=clock,fired:=q.fired++fired},doSync)

def resync (q : Queue R) (realTime : SystemTime) : Queue R := {q with clock:=q.clock.resync realTime}

inductive Act (R : Type) where
  | insert (r : R) (imLeader : Bool)
  | freeFromLate (id : Nat) (newDeadline : SystemTime)
  | wait
  | tick (fast : Bool)
  | resync (realTime : SystemTime)

def step (q : Queue R) : Act R → Option (Queue R)
  | .insert r imLeader => some (q.insert r imLeader).1
  | .freeFromLate id newDeadline => some (q.freeFromLate id newDeadline)
  | .wait => q.wait
  | .tick fast => some (q.tick fast).1
  | .resync realTime => some (q.resync realTime)

end Queue
end OmniPaxosKV

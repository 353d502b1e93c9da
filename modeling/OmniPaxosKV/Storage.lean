import OmniPaxosKV.Command

namespace OmniPaxosKV

-- A position in the leader election, compared without its configuration.
structure Ballot where
  configId : Nat := 0
  n : Nat := 0
  priority : Nat := 0
  pid : NodeId := 0
  deriving DecidableEq, Repr

namespace Ballot

def lt (a b : Ballot) : Bool :=
  a.n < b.n || (a.n == b.n && (a.priority < b.priority || (a.priority == b.priority && a.pid < b.pid)))

instance : LT Ballot := ⟨fun a b => lt a b = true⟩
instance : LE Ballot := ⟨fun a b => lt b a = false⟩
instance (a b : Ballot) : Decidable (a < b) := inferInstanceAs (Decidable (lt a b = true))
instance (a b : Ballot) : Decidable (a ≤ b) := inferInstanceAs (Decidable (lt b a = false))

end Ballot

structure FlexibleQuorum where
  readQuorumSize : Nat
  writeQuorumSize : Nat
  deriving DecidableEq, Repr

structure ClusterConfig where
  configurationId : Nat
  nodes : List NodeId
  flexibleQuorum : Option FlexibleQuorum
  deriving DecidableEq, Repr

structure StopSign where
  nextConfig : ClusterConfig
  metadata : Option (List UInt8)
  deriving DecidableEq, Repr

inductive CompactionErr where
  | undecidedIndex (decidedIdx : Nat)
  | trimmedIndex (compactedIdx : Nat)
  deriving DecidableEq, Repr

-- How a storage call can end badly: an error value that the caller may handle,
-- or a panic that ends the calling task.
inductive Fault where
  | backend
  | compaction (err : CompactionErr)
  | panic
  deriving DecidableEq, Repr

abbrev StorageResult (α : Type) := Except Fault α

-- A call on mutable storage: it leaves a state behind whether or not it succeeds.
abbrev StorageCall (B α : Type) := B → StorageResult α × B

-- Unsigned subtraction with overflow checks.
def checkedSub (a b : Nat) : StorageResult Nat := if b ≤ a then .ok (a-b) else .error .panic

inductive StorageOp (T S : Type) where
  | appendEntry (entry : T)
  | appendEntries (entries : List T)
  | appendOnPrefix (fromIdx : Nat) (entries : List T)
  | setPromise (ballot : Ballot)
  | setDecidedIndex (idx : Nat)
  | setAcceptedRound (ballot : Ballot)
  | setCompactedIdx (idx : Nat)
  | trim (idx : Nat)
  | setStopsign (ss : Option StopSign)
  | setSnapshot (snapshot : Option S)

-- The trait every back-end implements, over entries `T` and their snapshots `S`.
-- `history_hash` is not here: it runs a hasher that is a parameter of the model.
class Storage (B : Type) (T S : outParam Type) where
  writeAtomically : List (StorageOp T S) → StorageCall B Unit
  appendEntries : List T → StorageCall B Unit
  setPromise : Ballot → StorageCall B Unit
  setDecidedIdx : Nat → StorageCall B Unit
  setStopsign : Option StopSign → StorageCall B Unit
  getEntries : Nat → Nat → B → StorageResult (List T)
  getSuffix : Nat → B → StorageResult (List T)
  getLogLen : B → StorageResult Nat
  getPromise : B → StorageResult (Option Ballot)
  getAcceptedRound : B → StorageResult (Option Ballot)
  getDecidedIdx : B → StorageResult Nat
  getCompactedIdx : B → StorageResult Nat
  getStopsign : B → StorageResult (Option StopSign)
  getSnapshot : B → StorageResult (Option S)

structure MemoryStorage (T S : Type) where
  log : List T := []
  nProm : Option Ballot := none
  accRound : Option Ballot := none
  ld : Nat := 0
  trimmedIdx : Nat := 0
  compactedIdx : Nat := 0
  snapshot : Option S := none
  stopsign : Option StopSign := none

namespace MemoryStorage
variable {T S : Type}

-- Runs one hasher over every stored entry, oldest first.
def historyHash [Entry T] (hasher : List UInt8 → UInt64) (s : MemoryStorage T S) : UInt64 :=
  hasher (s.log.flatMap Entry.hash)

def appendEntries (entries : List T) : StorageCall (MemoryStorage T S) Unit :=
  fun s => (.ok (),{s with log:=s.log++entries})

def appendOnPrefix (fromIdx : Nat) (entries : List T) : StorageCall (MemoryStorage T S) Unit :=
  fun s => match checkedSub fromIdx s.trimmedIdx with
    | .error fault => (.error fault,s)
    | .ok keep => (.ok (),{s with log:=s.log.take keep++entries})

def trim (trimmedIdx : Nat) : StorageCall (MemoryStorage T S) Unit :=
  fun s => match checkedSub trimmedIdx s.trimmedIdx with
    | .error fault => (.error fault,s)
    | .ok count => (.ok (),{s with log:=s.log.drop (min count s.log.length),trimmedIdx:=trimmedIdx})

def perform : StorageOp T S → StorageCall (MemoryStorage T S) Unit
  | .appendEntry entry => appendEntries [entry]
  | .appendEntries entries => appendEntries entries
  | .appendOnPrefix fromIdx entries => appendOnPrefix fromIdx entries
  | .setPromise ballot => fun s => (.ok (),{s with nProm:=some ballot})
  | .setDecidedIndex idx => fun s => (.ok (),{s with ld:=idx})
  | .setAcceptedRound ballot => fun s => (.ok (),{s with accRound:=some ballot})
  | .setCompactedIdx idx => fun s => (.ok (),{s with compactedIdx:=idx})
  | .trim idx => trim idx
  | .setStopsign ss => fun s => (.ok (),{s with stopsign:=ss})
  | .setSnapshot snapshot => fun s => (.ok (),{s with snapshot:=snapshot})

-- One operation after the other; there is no roll-back of the earlier ones.
def writeAtomically : List (StorageOp T S) → StorageCall (MemoryStorage T S) Unit
  | [] => fun s => (.ok (),s)
  | op::rest => fun s => match perform op s with
    | (.ok (),s) => writeAtomically rest s
    | (.error fault,s) => (.error fault,s)

-- `log.get(from..to)`: nothing when the range is inverted or ends past the log.
def getEntries (start stop : Nat) (s : MemoryStorage T S) : StorageResult (List T) := do
  let start ← checkedSub start s.trimmedIdx
  let stop ← checkedSub stop s.trimmedIdx
  return if start ≤ stop ∧ stop ≤ s.log.length then (s.log.take stop).drop start else []

def getSuffix (start : Nat) (s : MemoryStorage T S) : StorageResult (List T) := do
  let start ← checkedSub start s.trimmedIdx
  return s.log.drop start

instance : Storage (MemoryStorage T S) T S where
  writeAtomically := writeAtomically
  appendEntries := appendEntries
  setPromise ballot := perform (.setPromise ballot)
  setDecidedIdx idx := perform (.setDecidedIndex idx)
  setStopsign ss := perform (.setStopsign ss)
  getEntries := getEntries
  getSuffix := getSuffix
  getLogLen s := .ok s.log.length
  getPromise s := .ok s.nProm
  getAcceptedRound s := .ok s.accRound
  getDecidedIdx s := .ok s.ld
  getCompactedIdx s := .ok s.compactedIdx
  getStopsign s := .ok s.stopsign
  getSnapshot s := .ok s.snapshot

end MemoryStorage

structure StateCache (T : Type) where
  batchSize : Nat
  batchedEntries : List T := []
  promise : Ballot := {}
  acceptedRound : Ballot := {}
  decidedIdx : Nat := 0
  acceptedIdx : Nat := 0
  compactedIdx : Nat := 0
  stopsign : Option StopSign := none

namespace StateCache

def takeBatchedEntries (s : StateCache T) : List T × StateCache T :=
  (s.batchedEntries,{s with batchedEntries:=[]})

def takeEntriesIfBatchIsFull (s : StateCache T) : Option (List T) × StateCache T :=
  if s.batchSize ≤ s.batchedEntries.length then
    let (entries,s) := s.takeBatchedEntries
    (some entries,s)
  else (none,s)

def appendEntries (s : StateCache T) (entries : List T) : Option (List T) × StateCache T :=
  ({s with batchedEntries:=s.batchedEntries++entries} : StateCache T).takeEntriesIfBatchIsFull

def stopsignIsDecided (s : StateCache T) : Bool := s.stopsign.isSome && s.decidedIdx == s.acceptedIdx

end StateCache

inductive LogEntry (T : Type) where
  | decided (entry : T)
  | undecided (entry : T)
  | trimmed (idx : Nat)
  | stopSign (ss : StopSign) (decided : Bool)

inductive IndexEntry where
  | entry
  | compacted
  | stopSign (ss : StopSign)

structure InternalStorage (B T : Type) where
  storage : B
  stateCache : StateCache T

namespace InternalStorage
variable {B T S : Type} [Storage B T S]

def loadCache (s : InternalStorage B T) : StorageResult (InternalStorage B T) := do
  let promise ← Storage.getPromise s.storage
  let decidedIdx ← Storage.getDecidedIdx s.storage
  let acceptedRound ← Storage.getAcceptedRound s.storage
  let compactedIdx ← Storage.getCompactedIdx s.storage
  let stopsign ← Storage.getStopsign s.storage
  let len ← Storage.getLogLen s.storage
  return {s with stateCache:={s.stateCache with
    promise:=promise.getD {}
    decidedIdx:=decidedIdx
    acceptedRound:=acceptedRound.getD {}
    compactedIdx:=compactedIdx
    stopsign:=stopsign
    acceptedIdx:=len+compactedIdx+(if stopsign.isSome then 1 else 0)}}

def new (storage : B) (batchSize : Nat) : StorageResult (InternalStorage B T) :=
  loadCache ⟨storage,{batchSize:=batchSize}⟩

def appendEntriesWithoutBatching (entries : List T) : StorageCall (InternalStorage B T) Nat :=
  fun s => match Storage.appendEntries entries s.storage with
    | (.error fault,storage) => (.error fault,{s with storage:=storage})
    | (.ok (),storage) =>
      let idx := s.stateCache.acceptedIdx+entries.length
      (.ok idx,⟨storage,{s.stateCache with acceptedIdx:=idx}⟩)

def appendEntriesAndGetAcceptedIdx (entries : List T) : StorageCall (InternalStorage B T) (Option Nat) :=
  fun s => match s.stateCache.appendEntries entries with
    | (none,cache) => (.ok none,{s with stateCache:=cache})
    | (some flushed,cache) =>
      match appendEntriesWithoutBatching flushed {s with stateCache:=cache} with
      | (.error fault,s) => (.error fault,s)
      | (.ok idx,s) => (.ok (some idx),s)

def flushBatch : StorageCall (InternalStorage B T) Nat :=
  fun s =>
    let (flushed,cache) := s.stateCache.takeBatchedEntries
    appendEntriesWithoutBatching flushed {s with stateCache:=cache}

-- The cache is written first, then the back-end.
def setPromise (ballot : Ballot) : StorageCall (InternalStorage B T) Unit :=
  fun s =>
    let (result,storage) := Storage.setPromise ballot s.storage
    (result,⟨storage,{s.stateCache with promise:=ballot}⟩)

def setDecidedIdx (idx : Nat) : StorageCall (InternalStorage B T) Unit :=
  fun s =>
    let (result,storage) := Storage.setDecidedIdx idx s.storage
    (result,⟨storage,{s.stateCache with decidedIdx:=idx}⟩)

def getEntryType (s : InternalStorage B T) (idx : Nat) : Option IndexEntry :=
  if idx < s.stateCache.compactedIdx then some .compacted
  else if idx+1 < s.stateCache.acceptedIdx then some .entry
  else if idx+1 = s.stateCache.acceptedIdx then
    match s.stateCache.stopsign with
    | some ss => some (.stopSign ss)
    | none => some .entry
  else none

def createReadLogEntries (s : InternalStorage B T) (start stop : Nat) : StorageResult (List (LogEntry T)) := do
  let entries ← Storage.getEntries start stop s.storage
  return entries.zipIdx.map fun (entry,idx) =>
    if idx+start < s.stateCache.decidedIdx then .decided entry else .undecided entry

-- Reads the half-open range; the combinations that start in the compacted part
-- are left unimplemented by the source and panic.
def read (s : InternalStorage B T) (fromIdx toIdx : Nat) : StorageResult (Option (List (LogEntry T))) :=
  if toIdx = 0 then .ok none else
  match s.getEntryType (toIdx-1),s.getEntryType fromIdx with
  | none,_ => .ok none
  | some _,none => .ok none
  | some .entry,some .entry => do return some (← s.createReadLogEntries fromIdx toIdx)
  | some (.stopSign ss),some .entry => do
    let entries ← s.createReadLogEntries fromIdx (toIdx-1)
    return some (entries++[.stopSign ss s.stateCache.stopsignIsDecided])
  | some (.stopSign _),some (.stopSign ss) => .ok (some [.stopSign ss s.stateCache.stopsignIsDecided])
  | _,_ => .error .panic

def readDecidedSuffix (s : InternalStorage B T) (fromIdx : Nat) : StorageResult (Option (List (LogEntry T))) :=
  if fromIdx < s.stateCache.decidedIdx then s.read fromIdx s.stateCache.decidedIdx else .ok none

end InternalStorage
end OmniPaxosKV

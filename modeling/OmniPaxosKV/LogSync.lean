import OmniPaxosKV.Storage

namespace OmniPaxosKV

-- The trait of a snapshot type. A type with `useSnapshots` off never has the
-- other two functions called by `createLogSync`.
class Snapshot (T : outParam Type) (S : Type) where
  create : List T → S
  merge : S → S → S
  useSnapshots : Bool

inductive SnapshotType (S : Type) where
  | complete (snapshot : S)
  | delta (snapshot : S)
  deriving DecidableEq, Repr

-- What a leader sends to bring another log in line with its own.
structure LogSync (T S : Type) where
  decidedSnapshot : Option (SnapshotType S)
  suffix : List T
  syncIdx : Nat
  stopsign : Option StopSign
  deriving DecidableEq, Repr

-- The accepted index once the stop-sign is `ss`.
def StateCache.countStopsign (ss : Option StopSign) (cache : StateCache T) : StorageResult Nat :=
  match ss,cache.stopsign with
  | some _,none => .ok (cache.acceptedIdx+1)
  | none,some _ => checkedSub cache.acceptedIdx 1
  | _,_ => .ok cache.acceptedIdx

namespace InternalStorage
variable {B T S : Type} [Storage B T S]

def getDecidedIdxWithoutStopsign (s : InternalStorage B T) : StorageResult Nat :=
  if s.stateCache.stopsignIsDecided then checkedSub s.stateCache.decidedIdx 1 else .ok s.stateCache.decidedIdx

-- Writes a transaction for a cache that is already updated.
def commit (txn : List (StorageOp T S)) : StorageCall (InternalStorage B T) Unit :=
  fun s =>
    let (result,storage) := Storage.writeAtomically txn s.storage
    (result,{s with storage:=storage})

def setStopsign (ss : Option StopSign) : StorageCall (InternalStorage B T) Nat :=
  fun s => match s.stateCache.countStopsign ss with
    | .error fault => (.error fault,s)
    | .ok acceptedIdx =>
      let cache := {s.stateCache with acceptedIdx:=acceptedIdx,stopsign:=ss}
      match Storage.setStopsign ss s.storage with
      | (.error fault,storage) => (.error fault,⟨storage,cache⟩)
      | (.ok (),storage) => (.ok acceptedIdx,⟨storage,cache⟩)

-- Where a compaction asked for at `idx` ends: a decided stop-sign is left out.
def compactionIdx (s : InternalStorage B T) (idx : Nat) : StorageResult Nat :=
  match s.getDecidedIdxWithoutStopsign with
  | .error fault => .error fault
  | .ok logDecidedIdx =>
    if idx < s.stateCache.decidedIdx then .ok idx
    else if idx = s.stateCache.decidedIdx then .ok logDecidedIdx
    else .error (.compaction (.undecidedIndex s.stateCache.decidedIdx))

-- Where a snapshot asked for at an index, or at none, ends.
def snapshotTarget (s : InternalStorage B T) : Option Nat → StorageResult Nat
  | some idx => s.compactionIdx idx
  | none => s.getDecidedIdxWithoutStopsign

-- The transaction of a compaction; the cache follows only when it succeeded.
def compact (idx : Nat) (txn : List (StorageOp T S)) : StorageCall (InternalStorage B T) Unit :=
  fun s => match Storage.writeAtomically txn s.storage with
    | (.error fault,storage) => (.error fault,{s with storage:=storage})
    | (.ok (),storage) => (.ok (),⟨storage,{s.stateCache with compactedIdx:=idx}⟩)

def tryTrim (idx : Nat) : StorageCall (InternalStorage B T) Unit :=
  fun s => match s.compactionIdx idx with
    | .error fault => (.error fault,s)
    | .ok newCompactedIdx =>
      if s.stateCache.compactedIdx < newCompactedIdx then
        compact newCompactedIdx [.trim newCompactedIdx,.setCompactedIdx newCompactedIdx] s
      else (.ok (),s)

variable [Snapshot T S]

def createSnapshot (s : InternalStorage B T) (compactIdx : Nat) : StorageResult S :=
  if compactIdx < s.stateCache.compactedIdx then .error (.compaction (.trimmedIndex s.stateCache.compactedIdx))
  else do
    let entries ← Storage.getEntries s.stateCache.compactedIdx compactIdx s.storage
    let snapshot ← Storage.getSnapshot s.storage
    return match snapshot with
      | some snapshot => Snapshot.merge snapshot (Snapshot.create entries)
      | none => Snapshot.create entries

def createDecidedSnapshot (s : InternalStorage B T) : StorageResult S := do
  let logDecidedIdx ← s.getDecidedIdxWithoutStopsign
  s.createSnapshot logDecidedIdx

-- A snapshot of the decided entries from `fromIdx` on, or of the whole decided
-- log when some of those entries are compacted, with its compacted index.
def createDiffSnapshot (s : InternalStorage B T) (fromIdx : Nat) :
    StorageResult (Option (SnapshotType S) × Nat) := do
  let logDecidedIdx ← s.getDecidedIdxWithoutStopsign
  if fromIdx ≤ s.stateCache.compactedIdx then
    if s.stateCache.compactedIdx < logDecidedIdx then
      let snapshot ← s.createSnapshot logDecidedIdx
      return (some (.complete snapshot),logDecidedIdx)
    else
      let snapshot ← Storage.getSnapshot s.storage
      return (snapshot.map .complete,logDecidedIdx)
  else
    let entries ← Storage.getEntries fromIdx logDecidedIdx s.storage
    return (some (.delta (Snapshot.create entries)),logDecidedIdx)

def trySnapshot (snapshotIdx : Option Nat) : StorageCall (InternalStorage B T) Unit :=
  fun s => match s.snapshotTarget snapshotIdx with
    | .error fault => (.error fault,s)
    | .ok newCompactedIdx =>
      if s.stateCache.compactedIdx < newCompactedIdx then
        match s.createSnapshot newCompactedIdx with
        | .error fault => (.error fault,s)
        | .ok snapshot => compact newCompactedIdx
            [.trim newCompactedIdx,.setCompactedIdx newCompactedIdx,.setSnapshot (some snapshot)] s
      else (.ok (),s)

-- The snapshot that a sync puts in place, if any: a delta is merged into a
-- snapshot of the receiver's own decided log.
def syncSnapshot (s : InternalStorage B T) (sync : LogSync T S) : StorageResult (Option S) :=
  match sync.decidedSnapshot with
  | none => .ok none
  | some (.complete snapshot) => .ok (some snapshot)
  | some (.delta delta) => do
    let snapshot ← s.createDecidedSnapshot
    return some (Snapshot.merge snapshot delta)

def syncTxn (s : InternalStorage B T) (sync : LogSync T S) (snapshot : Option S) : List (StorageOp T S) :=
  let compaction := match snapshot with
    | some snapshot => [.trim sync.syncIdx,.setCompactedIdx sync.syncIdx,.setSnapshot (some snapshot)]
    | none => []
  let stopsign := match sync.stopsign,s.stateCache.stopsign with
    | some ss,_ => [.setStopsign (some ss)]
    | none,some _ => [.setStopsign none]
    | none,none => []
  compaction++[.appendOnPrefix sync.syncIdx sync.suffix]++stopsign

def syncCache (cache : StateCache T) (sync : LogSync T S) (snapshot : Option S) : StateCache T :=
  {cache with
    compactedIdx:=if snapshot.isSome then sync.syncIdx else cache.compactedIdx
    acceptedIdx:=sync.syncIdx+sync.suffix.length+(if sync.stopsign.isSome then 1 else 0)
    stopsign:=sync.stopsign}

-- Round and decided index reach the cache before anything else is computed.
def syncStart (acceptedRound : Ballot) (decidedIdx : Nat) (s : InternalStorage B T) : InternalStorage B T :=
  {s with stateCache:={s.stateCache with acceptedRound:=acceptedRound,decidedIdx:=decidedIdx}}

def syncLog (acceptedRound : Ballot) (decidedIdx : Nat) (logSync : Option (LogSync T S)) :
    StorageCall (InternalStorage B T) Nat :=
  fun s =>
    let s := syncStart acceptedRound decidedIdx s
    let opening : List (StorageOp T S) := [.setAcceptedRound acceptedRound,.setDecidedIndex decidedIdx]
    let prepared : StorageResult (List (StorageOp T S) × StateCache T) := match logSync with
      | none => .ok (opening,s.stateCache)
      | some sync => match s.syncSnapshot sync with
        | .error fault => .error fault
        | .ok snapshot => .ok (opening++s.syncTxn sync snapshot,syncCache s.stateCache sync snapshot)
    match prepared with
    | .error fault => (.error fault,s)
    | .ok (txn,cache) => match commit txn {s with stateCache:=cache} with
      | (.error fault,s) => (.error fault,s)
      | (.ok (),s) => (.ok s.stateCache.acceptedIdx,s)

-- A failed read ends the sending task.
def expectRead (result : StorageResult α) : StorageResult α :=
  match result with
  | .ok value => .ok value
  | .error _ => .error .panic

-- What the leader of this log sends to a log that agrees with it before
-- `commonPrefixIdx` and has decided `otherLogsDecidedIdx`.
def createLogSync (s : InternalStorage B T) (commonPrefixIdx otherLogsDecidedIdx : Nat) :
    StorageResult (LogSync T S) :=
  if Snapshot.useSnapshots S ∧ commonPrefixIdx < s.stateCache.decidedIdx then do
    let (snapshot,compactedIdx) ← expectRead (s.createDiffSnapshot otherLogsDecidedIdx)
    let suffix ← expectRead (Storage.getSuffix s.stateCache.decidedIdx s.storage)
    return ⟨snapshot,suffix,compactedIdx,s.stateCache.stopsign⟩
  else do
    let suffix ← expectRead (Storage.getSuffix commonPrefixIdx s.storage)
    return ⟨none,suffix,commonPrefixIdx,s.stateCache.stopsign⟩

end InternalStorage
end OmniPaxosKV

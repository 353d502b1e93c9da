import OmniPaxosKV.Reads
import OmniPaxosKV.OrderedMap

namespace OmniPaxosKV

abbrev Bytes := List UInt8

-- The serializer for everything but plain numbers.
class Bincode (α : Type) where
  serialize : α → StorageResult Bytes
  deserialize : Bytes → StorageResult α

-- Log keys are numbers whose byte order is their own; plain numbers are stored as
-- they lie in memory, least byte first.
def toBeBytes (n : Nat) : Bytes := bigEndian 8 n

def asBytes (n : Nat) : Bytes := (toBeBytes n).reverse

def readFrom (bytes : Bytes) : Option Nat := if bytes.length = 8 then some (ofBigEndian bytes.reverse) else none

-- The keys of the default column.
inductive StateKey where
  | nprom | acc | decide | trim | stopsign | snapshot
  deriving DecidableEq, Repr

inductive BatchOp where
  | put (key : StateKey) (value : Bytes)
  | putLog (key value : Bytes)
  | deleteRangeLog (low high : Bytes)

-- The key-value store: a column for the state and one for the log.
structure RocksDB where
  state : KeyMap StateKey Bytes := .empty
  log : OrderedMap Bytes Bytes := .empty

namespace RocksDB

def apply (db : RocksDB) : BatchOp → RocksDB
  | .put key value => {db with state:=db.state.insert key value}
  | .putLog key value => {db with log:=db.log.put key value}
  | .deleteRangeLog low high => {db with log:=db.log.deleteRange low high}

def write (db : RocksDB) (batch : List BatchOp) : RocksDB := batch.foldl apply db

end RocksDB

-- `writeBatch` is what a transaction has gathered; it outlives one that failed.
structure PersistentStorage (T S : Type) where
  db : RocksDB
  writeBatch : List BatchOp := []
  nextLogKey : Nat

namespace PersistentStorage
variable {T S : Type}

-- The next key is one above the last one, or where the trimmed log ends.
def recoverNextLogKey (db : RocksDB) : StorageResult Nat :=
  match db.log.last? with
  | some (key,_) => if key.length = 8 then checkedAdd (ofBigEndian key) 1 else .error .panic
  | none => match db.state .trim with
    | none => .ok 0
    | some bytes => match readFrom bytes with
      | none => .error .panic
      | some idx => .ok idx

def openStorage (db : RocksDB) : StorageResult (PersistentStorage T S) :=
  (recoverNextLogKey db).map fun nextLogKey => ⟨db,[],nextLogKey⟩

-- The loop that numbers and serializes entries, into the batch it is given.
def putEntries [Bincode T] : List T → StorageCall (Nat × List BatchOp) Unit
  | [] => fun s => (.ok (),s)
  | entry::rest => fun (nextLogKey,batch) => match Bincode.serialize entry with
    | .error fault => (.error fault,nextLogKey,batch)
    | .ok bytes =>
      let batch := batch++[.putLog (toBeBytes nextLogKey) bytes]
      match checkedAdd nextLogKey 1 with
      | .error fault => (.error fault,nextLogKey,batch)
      | .ok nextLogKey => putEntries rest (nextLogKey,batch)

def push (s : PersistentStorage T S) (op : BatchOp) : PersistentStorage T S := {s with writeBatch:=s.writeBatch++[op]}

def batchAppendEntries [Bincode T] (entries : List T) : StorageCall (PersistentStorage T S) Unit :=
  fun s =>
    let (result,nextLogKey,batch) := putEntries entries (s.nextLogKey,s.writeBatch)
    (result,{s with nextLogKey:=nextLogKey,writeBatch:=batch})

def batchAppendEntry [Bincode T] (entry : T) : StorageCall (PersistentStorage T S) Unit := batchAppendEntries [entry]

-- Entries that will be overwritten need no deletion.
def batchAppendOnPrefix [Bincode T] (fromIdx : Nat) (entries : List T) : StorageCall (PersistentStorage T S) Unit :=
  fun s => match checkedAdd fromIdx entries.length with
    | .error fault => (.error fault,s)
    | .ok deleteIdx =>
      let s := if deleteIdx < s.nextLogKey then s.push (.deleteRangeLog (toBeBytes deleteIdx) (toBeBytes s.nextLogKey)) else s
      batchAppendEntries entries {s with nextLogKey:=fromIdx}

def batchPut [Bincode α] (key : StateKey) (value : α) : StorageCall (PersistentStorage T S) Unit :=
  fun s => match Bincode.serialize value with
    | .error fault => (.error fault,s)
    | .ok bytes => (.ok (),s.push (.put key bytes))

def batchPutIdx (key : StateKey) (idx : Nat) : StorageCall (PersistentStorage T S) Unit :=
  fun s => (.ok (),s.push (.put key (asBytes idx)))

def batchSetPromise [Bincode Ballot] (ballot : Ballot) : StorageCall (PersistentStorage T S) Unit := batchPut .nprom ballot
def batchSetDecidedIdx (idx : Nat) : StorageCall (PersistentStorage T S) Unit := batchPutIdx .decide idx
def batchSetAcceptedRound [Bincode Ballot] (ballot : Ballot) : StorageCall (PersistentStorage T S) Unit := batchPut .acc ballot
def batchSetCompactedIdx (idx : Nat) : StorageCall (PersistentStorage T S) Unit := batchPutIdx .trim idx
def batchSetStopsign [Bincode (Option StopSign)] (ss : Option StopSign) : StorageCall (PersistentStorage T S) Unit :=
  batchPut .stopsign ss
def batchSetSnapshot [Bincode (Option S)] (snapshot : Option S) : StorageCall (PersistentStorage T S) Unit :=
  batchPut .snapshot snapshot

def batchTrim (trimmedIdx : Nat) : StorageCall (PersistentStorage T S) Unit :=
  fun s => (.ok (),s.push (.deleteRangeLog (toBeBytes 0) (toBeBytes trimmedIdx)))

-- The batch reaches the database as a whole.
def flush (s : PersistentStorage T S) : PersistentStorage T S := {s with db:=s.db.write s.writeBatch,writeBatch:=[]}

section Writes
variable [Bincode T] [Bincode (Option S)] [Bincode Ballot] [Bincode (Option StopSign)]

def batch : StorageOp T S → StorageCall (PersistentStorage T S) Unit
  | .appendEntry entry => batchAppendEntry entry
  | .appendEntries entries => batchAppendEntries entries
  | .appendOnPrefix fromIdx entries => batchAppendOnPrefix fromIdx entries
  | .setPromise ballot => batchSetPromise ballot
  | .setDecidedIndex idx => batchSetDecidedIdx idx
  | .setAcceptedRound ballot => batchSetAcceptedRound ballot
  | .setCompactedIdx idx => batchSetCompactedIdx idx
  | .trim idx => batchTrim idx
  | .setStopsign ss => batchSetStopsign ss
  | .setSnapshot snapshot => batchSetSnapshot snapshot

def writeAtomically : List (StorageOp T S) → StorageCall (PersistentStorage T S) Unit
  | [] => fun s => (.ok (),s.flush)
  | op::rest => fun s => match batch op s with
    | (.ok (),s) => writeAtomically rest s
    | (.error fault,s) => (.error fault,s)

end Writes

def appendEntries [Bincode T] (entries : List T) : StorageCall (PersistentStorage T S) Unit :=
  fun s => match putEntries entries (s.nextLogKey,[]) with
    | (.error fault,nextLogKey,_) => (.error fault,{s with nextLogKey:=nextLogKey})
    | (.ok (),nextLogKey,batch) => (.ok (),{s with nextLogKey:=nextLogKey,db:=s.db.write batch})

-- An entry is in the database before the next key moves on.
def appendEntry [Bincode T] (entry : T) : StorageCall (PersistentStorage T S) Unit :=
  fun s => match Bincode.serialize entry with
    | .error fault => (.error fault,s)
    | .ok bytes =>
      let s := {s with db:=s.db.apply (.putLog (toBeBytes s.nextLogKey) bytes)}
      match checkedAdd s.nextLogKey 1 with
      | .error fault => (.error fault,s)
      | .ok nextLogKey => (.ok (),{s with nextLogKey:=nextLogKey})

def appendOnPrefix [Bincode T] (fromIdx : Nat) (entries : List T) : StorageCall (PersistentStorage T S) Unit :=
  fun s => match checkedAdd fromIdx entries.length with
    | .error fault => (.error fault,s)
    | .ok deleteIdx =>
      let s := if deleteIdx < s.nextLogKey then
          {s with db:=s.db.apply (.deleteRangeLog (toBeBytes deleteIdx) (toBeBytes s.nextLogKey))}
        else s
      appendEntries entries {s with nextLogKey:=fromIdx}

def put [Bincode α] (key : StateKey) (value : α) : StorageCall (PersistentStorage T S) Unit :=
  fun s => match Bincode.serialize value with
    | .error fault => (.error fault,s)
    | .ok bytes => (.ok (),{s with db:=s.db.apply (.put key bytes)})

def setPromise [Bincode Ballot] (ballot : Ballot) : StorageCall (PersistentStorage T S) Unit := put .nprom ballot
def setStopsign [Bincode (Option StopSign)] (ss : Option StopSign) : StorageCall (PersistentStorage T S) Unit :=
  put .stopsign ss
def setDecidedIdx (idx : Nat) : StorageCall (PersistentStorage T S) Unit :=
  fun s => (.ok (),{s with db:=s.db.apply (.put .decide (asBytes idx))})

def setCompactedIdx (trimmedIdx : Nat) : StorageCall (PersistentStorage T S) Unit :=
  fun s => (.ok (),{s with db:=s.db.apply (.put .trim (asBytes trimmedIdx))})

def trim (trimmedIdx : Nat) : StorageCall (PersistentStorage T S) Unit :=
  fun s => (.ok (),{s with db:=s.db.apply (.deleteRangeLog (toBeBytes 0) (toBeBytes trimmedIdx))})

-- The iterator's next values, one for each index of the range.
def collect [Bincode T] : Nat → List (Bytes × Bytes) → StorageResult (List T)
  | 0,_ => .ok []
  | _+1,[] => .error .backend
  | count+1,(_,bytes)::rest => do
    let entry ← Bincode.deserialize bytes
    let entries ← collect count rest
    return entry::entries

def getEntries [Bincode T] (start stop : Nat) (s : PersistentStorage T S) : StorageResult (List T) :=
  if s.nextLogKey < stop ∨ stop ≤ start then .ok []
  else collect (stop-start) (s.db.log.seek (toBeBytes start))

def getSuffix [Bincode T] (start : Nat) (s : PersistentStorage T S) : StorageResult (List T) :=
  s.getEntries start s.nextLogKey

def getIdx (key : StateKey) (s : PersistentStorage T S) : StorageResult Nat :=
  match s.db.state key with
  | none => .ok 0
  | some bytes => match readFrom bytes with
    | none => .error .backend
    | some idx => .ok idx

def getDecidedIdx (s : PersistentStorage T S) : StorageResult Nat := s.getIdx .decide
def getCompactedIdx (s : PersistentStorage T S) : StorageResult Nat := s.getIdx .trim

def getLogLen (s : PersistentStorage T S) : StorageResult Nat := do
  let compactedIdx ← s.getCompactedIdx
  checkedSub s.nextLogKey compactedIdx

def getBallot [Bincode Ballot] (key : StateKey) (s : PersistentStorage T S) : StorageResult (Option Ballot) :=
  match s.db.state key with
  | none => .ok none
  | some bytes => do
    let ballot ← Bincode.deserialize bytes
    return some ballot

def getPromise [Bincode Ballot] (s : PersistentStorage T S) : StorageResult (Option Ballot) := s.getBallot .nprom
def getAcceptedRound [Bincode Ballot] (s : PersistentStorage T S) : StorageResult (Option Ballot) := s.getBallot .acc

def getOption [Bincode (Option α)] (key : StateKey) (s : PersistentStorage T S) : StorageResult (Option α) :=
  match s.db.state key with
  | none => .ok none
  | some bytes => Bincode.deserialize bytes

def getStopsign [Bincode (Option StopSign)] (s : PersistentStorage T S) : StorageResult (Option StopSign) :=
  s.getOption .stopsign
def getSnapshot [Bincode (Option S)] (s : PersistentStorage T S) : StorageResult (Option S) := s.getOption .snapshot

instance [Bincode T] [Bincode (Option S)] [Bincode Ballot] [Bincode (Option StopSign)] :
    Storage (PersistentStorage T S) T S where
  writeAtomically := writeAtomically
  appendEntries := appendEntries
  setPromise := setPromise
  setDecidedIdx := setDecidedIdx
  setStopsign := setStopsign
  getEntries := getEntries
  getSuffix := getSuffix
  getLogLen := getLogLen
  getPromise := getPromise
  getAcceptedRound := getAcceptedRound
  getDecidedIdx := getDecidedIdx
  getCompactedIdx := getCompactedIdx
  getStopsign := getStopsign
  getSnapshot := getSnapshot

end PersistentStorage
end OmniPaxosKV

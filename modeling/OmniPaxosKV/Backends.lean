import OmniPaxosKV.Persistent
import Mathlib.Logic.Equiv.List

-- The two back-ends side by side: the database holds what the memory holds, key
-- by key, after every transaction and every time it is opened again.
namespace OmniPaxosKV

-- What is written can be written, and is read back as it was.
class Bincode.Lossless (α : Type) [Bincode α] : Prop where
  round_trip : ∀ value : α, ∃ bytes, Bincode.serialize value = .ok bytes ∧ Bincode.deserialize bytes = .ok value

namespace Backends
open OrderedMap PersistentStorage

section Codes
variable {α : Type} [Bincode α] [Bincode.Lossless α]

def code (value : α) : Bytes :=
  match Bincode.serialize value with
  | .ok bytes => bytes
  | .error _ => []

theorem serialize_code (value : α) : Bincode.serialize value = .ok (code value) := by
  obtain ⟨bytes,written,_⟩ := Bincode.Lossless.round_trip value
  simp only [code,written]

theorem deserialize_code (value : α) : Bincode.deserialize (code value) = .ok value := by
  obtain ⟨bytes,written,read⟩ := Bincode.Lossless.round_trip value
  simp only [code,written,read]

theorem toBeBytes_ascending : Ascending toBeBytes (2^64) := ascending_bigEndian 8

theorem ofBigEndian_toBeBytes (fits : n < 2^64) : ofBigEndian (toBeBytes n) = n := ofBigEndian_bigEndian fits

theorem readFrom_asBytes (fits : n < 2^64) : readFrom (asBytes n) = some n := by
  have length : (asBytes n).length = 8 := by rw [asBytes,List.length_reverse,toBeBytes,length_bigEndian]
  rw [readFrom,if_pos length,asBytes,List.reverse_reverse,ofBigEndian_toBeBytes fits]

end Codes

section Transactions
variable {T S : Type}

-- What an operation of a transaction asks of the memory and of the next key.
def Ready (m : MemoryStorage T S) (nextLogKey : Nat) : StorageOp T S → Prop
  | .appendEntry _ => nextLogKey = m.trimmedIdx+m.log.length ∧ nextLogKey+1 < 2^64
  | .appendEntries entries => nextLogKey = m.trimmedIdx+m.log.length ∧ nextLogKey+entries.length < 2^64
  | .appendOnPrefix fromIdx entries => m.trimmedIdx ≤ fromIdx ∧ fromIdx ≤ m.trimmedIdx+m.log.length ∧
      (m.log = [] ∨ m.trimmedIdx+m.log.length ≤ nextLogKey) ∧ nextLogKey < 2^64 ∧ fromIdx+entries.length < 2^64
  | .trim idx => m.trimmedIdx ≤ idx ∧ idx < 2^64
  | .setDecidedIndex idx => idx < 2^64
  | .setCompactedIdx idx => idx < 2^64
  | _ => True

def nextKey (nextLogKey : Nat) : StorageOp T S → Nat
  | .appendEntry _ => nextLogKey+1
  | .appendEntries entries => nextLogKey+entries.length
  | .appendOnPrefix fromIdx entries => fromIdx+entries.length
  | _ => nextLogKey

def ReadyAll (m : MemoryStorage T S) (nextLogKey : Nat) : List (StorageOp T S) → Prop
  | [] => True
  | op::rest => Ready m nextLogKey op ∧ ReadyAll (MemoryStorage.perform op m).2 (nextKey nextLogKey op) rest

-- A transaction as the memory runs it, with the next key before and after.
structure Carries (m : MemoryStorage T S) (nextLogKey : Nat) (txn : List (StorageOp T S)) (m' : MemoryStorage T S)
    (nextLogKey' : Nat) : Prop where
  ready : ReadyAll m nextLogKey txn
  ran : MemoryStorage.writeAtomically txn m = (.ok (),m')
  key : txn.foldl nextKey nextLogKey = nextLogKey'

theorem readyAll_append {m m' : MemoryStorage T S} {txn rest : List (StorageOp T S)} (ready : ReadyAll m n txn)
    (ran : MemoryStorage.writeAtomically txn m = (.ok (),m')) (onward : ReadyAll m' (txn.foldl nextKey n) rest) :
    ReadyAll m n (txn++rest) := by
  induction txn generalizing m n with
  | nil => cases ran; exact onward
  | cons op txn ih =>
    simp only [MemoryStorage.writeAtomically] at ran
    split at ran
    · rename_i after performed
      refine ⟨ready.1,ih ready.2 ?_ onward⟩
      rw [performed]
      exact ran
    · cases ran

theorem Carries.append {m m₁ m₂ : MemoryStorage T S} {txn rest : List (StorageOp T S)} (first : Carries m n txn m₁ n₁)
    (second : Carries m₁ n₁ rest m₂ n₂) : Carries m n (txn++rest) m₂ n₂ := by
  refine ⟨?_,?_,?_⟩
  · refine readyAll_append first.ready first.ran ?_
    rw [first.key]
    exact second.ready
  · rw [MemoryStorage.writeAtomically_append first.ran,second.ran]
  · rw [List.foldl_append,first.key,second.key]

theorem carries_opening (m : MemoryStorage T S) (n : Nat) (acceptedRound : Ballot) (fits : decidedIdx < 2^64) :
    Carries m n [.setAcceptedRound acceptedRound,.setDecidedIndex decidedIdx]
      {m with accRound:=some acceptedRound,ld:=decidedIdx} n :=
  ⟨⟨trivial,fits,trivial⟩,rfl,rfl⟩

theorem carries_compaction (m : MemoryStorage T S) (n : Nat) (ahead : m.trimmedIdx ≤ idx) (fits : idx < 2^64) :
    Carries m n [.trim idx,.setCompactedIdx idx] (m.compactTo idx) n :=
  ⟨⟨⟨ahead,fits⟩,fits,trivial⟩,MemoryStorage.write_compaction m [] ahead,rfl⟩

theorem carries_snapshot (m : MemoryStorage T S) (n : Nat) (snapshot : S) (ahead : m.trimmedIdx ≤ idx) (fits : idx < 2^64) :
    Carries m n [.trim idx,.setCompactedIdx idx,.setSnapshot (some snapshot)]
      {m.compactTo idx with snapshot:=some snapshot} n :=
  (carries_compaction m n ahead fits).append ⟨⟨trivial,trivial⟩,rfl,rfl⟩

theorem carries_overwrite (m : MemoryStorage T S) (entries : List T) (ahead : m.trimmedIdx ≤ idx)
    (within : idx ≤ m.trimmedIdx+m.log.length) (covers : m.log = [] ∨ m.trimmedIdx+m.log.length ≤ n) (small : n < 2^64)
    (fits : idx+entries.length < 2^64) : Carries m n [.appendOnPrefix idx entries]
      {m with log:=m.log.take (idx-m.trimmedIdx)++entries} (idx+entries.length) := by
  have wrote := MemoryStorage.perform_appendOnPrefix m entries ahead
  exact ⟨⟨⟨ahead,within,covers,small,fits⟩,trivial⟩,MemoryStorage.writeAtomically_cons wrote,rfl⟩

-- The stop-sign at the end of a sync changes nothing else.
theorem carries_stopsign (m : MemoryStorage T S) (n : Nat) (ss cached : Option StopSign) : ∃ ss',
    Carries m n (match ss,cached with
      | some ss,_ => [.setStopsign (some ss)]
      | none,some _ => [.setStopsign none]
      | none,none => []) {m with stopsign:=ss'} n := by
  cases ss with
  | some ss => exact ⟨some ss,⟨trivial,trivial⟩,rfl,rfl⟩
  | none => cases cached with
    | some _ => exact ⟨none,⟨trivial,trivial⟩,rfl,rfl⟩
    | none => exact ⟨m.stopsign,trivial,rfl,rfl⟩

-- A sync that the memory survives does not reach into the trimmed part.
theorem sync_ahead {m m' : MemoryStorage T S} (cache : StateCache T) (sync : LogSync T S) (ran : MemoryStorage.writeAtomically
    ([.setAcceptedRound acceptedRound,.setDecidedIndex decidedIdx]++
      InternalStorage.syncTxn (⟨m,cache⟩ : InternalStorage (MemoryStorage T S) T) sync none) m = (.ok (),m')) :
    m.trimmedIdx ≤ sync.syncIdx := by
  by_contra behind
  have refused : ∀ rest, MemoryStorage.writeAtomically (.setAcceptedRound acceptedRound::.setDecidedIndex decidedIdx::
      .appendOnPrefix sync.syncIdx sync.suffix::rest) m =
      (.error .panic,{m with accRound:=some acceptedRound,ld:=decidedIdx}) := by
    intro rest
    simp only [MemoryStorage.writeAtomically,MemoryStorage.perform,MemoryStorage.appendOnPrefix,checkedSub,if_neg behind]
  cases (refused _).symm.trans ran

end Transactions

section Entries
variable {T S : Type}

theorem flush_push (s : PersistentStorage T S) (op : BatchOp) :
    (s.push op).flush = {s.flush with db:=s.flush.db.apply op} := by
  simp only [push,flush,RocksDB.write,List.foldl_append,List.foldl_cons,List.foldl_nil]

theorem flush_idle {s : PersistentStorage T S} (idle : s.writeBatch = []) : s.flush = s := by
  obtain ⟨db,batch,next⟩ := s
  cases idle
  rfl

theorem batchPut_ok [Bincode α] [Bincode.Lossless α] (s : PersistentStorage T S) (key : StateKey) (value : α) :
    batchPut key value s = (.ok (),s.push (.put key (code value))) := by
  simp only [batchPut,serialize_code]

variable [Bincode T]

-- The writes that a loop over entries adds to its batch.
def puts (nextLogKey : Nat) : List T → List BatchOp
  | [] => []
  | entry::rest => .putLog (toBeBytes nextLogKey) (code entry)::puts (nextLogKey+1) rest

theorem write_puts (db : RocksDB) (nextLogKey : Nat) (entries : List T) :
    db.write (puts nextLogKey entries) = {db with log:=db.log.putFrom toBeBytes nextLogKey (entries.map code)} := by
  induction entries generalizing db nextLogKey with
  | nil => rfl
  | cons entry rest ih => exact ih (db.apply (.putLog (toBeBytes nextLogKey) (code entry))) (nextLogKey+1)

variable [Bincode.Lossless T]

theorem putEntries_ok (entries : List T) (nextLogKey : Nat) (batch : List BatchOp)
    (fits : nextLogKey+entries.length < 2^64) :
    putEntries entries (nextLogKey,batch) = (.ok (),nextLogKey+entries.length,batch++puts nextLogKey entries) := by
  induction entries generalizing nextLogKey batch with
  | nil => rw [puts,List.append_nil]; rfl
  | cons entry rest ih =>
    rw [List.length_cons] at fits
    have small : nextLogKey+1 < 2^64 := by omega
    simp only [putEntries,serialize_code,checkedAdd,if_pos small]
    rw [ih (nextLogKey+1) _ (by omega),List.append_assoc,List.length_cons,Nat.add_assoc,Nat.add_comm 1]
    rfl

-- A storage with these entries written over its log from the given number on.
def withPuts (s : PersistentStorage T S) (fromIdx : Nat) (entries : List T) : PersistentStorage T S :=
  {s with
    nextLogKey:=fromIdx+entries.length
    db:={s.db with log:=s.db.log.putFrom toBeBytes fromIdx (entries.map code)}}

theorem batchAppendEntries_ok (s : PersistentStorage T S) (entries : List T) (fits : s.nextLogKey+entries.length < 2^64) :
    ∃ next, batchAppendEntries entries s = (.ok (),next) ∧ next.nextLogKey = s.nextLogKey+entries.length ∧
      next.flush = withPuts s.flush s.nextLogKey entries := by
  have wrote := putEntries_ok entries s.nextLogKey s.writeBatch fits
  have all := write_puts (s.db.write s.writeBatch) s.nextLogKey entries
  refine ⟨⟨s.db,s.writeBatch++puts s.nextLogKey entries,s.nextLogKey+entries.length⟩,?_,rfl,?_⟩
  · simp only [batchAppendEntries,wrote]
  · simp only [flush,withPuts,RocksDB.write,List.foldl_append] at all ⊢
    rw [all]

theorem appendEntries_ok (s : PersistentStorage T S) (entries : List T) (fits : s.nextLogKey+entries.length < 2^64) :
    appendEntries entries s = (.ok (),withPuts s s.nextLogKey entries) := by
  have wrote := putEntries_ok entries s.nextLogKey [] fits
  simp only [appendEntries,wrote,List.nil_append,write_puts,withPuts]

-- Deleting what sticks out and writing over the rest is keeping a prefix.
theorem overwrite_block {log : OrderedMap Bytes Bytes} (block : Block toBeBytes log start values) (codes : List Bytes)
    (ahead : start ≤ idx) (within : idx ≤ start+values.length) (covers : values = [] ∨ start+values.length ≤ next)
    (small : next < 2^64) (fits : idx+codes.length < 2^64) :
    Block toBeBytes ((if idx+codes.length < next then
        log.deleteRange (toBeBytes (idx+codes.length)) (toBeBytes next) else log).putFrom toBeBytes idx codes)
      start (values.take (idx-start)++codes) := by
  obtain ⟨kept,held,prefixed,short⟩ : ∃ kept, Block toBeBytes (if idx+codes.length < next then
      log.deleteRange (toBeBytes (idx+codes.length)) (toBeBytes next) else log) start kept ∧
      kept.take (idx-start) = values.take (idx-start) ∧ kept.length ≤ idx-start+codes.length := by
    split
    · rename_i longer
      rcases covers with rfl | covers
      · exact ⟨[],block.delete_none _ _,rfl,Nat.zero_le _⟩
      · refine ⟨_,block.truncate toBeBytes_ascending (by omega) covers small (Nat.le_of_lt longer),?_,?_⟩
        · rw [List.take_take,Nat.min_eq_left (by omega)]
        · rw [List.length_take]
          omega
    · refine ⟨values,block,rfl,?_⟩
      rcases covers with rfl | covers
      · exact Nat.zero_le _
      · omega
  have length : (kept.take (idx-start)).length = idx-start := by
    rw [prefixed,List.length_take]
    omega
  rw [←List.take_append_drop (idx-start) kept] at held
  have wrote := held.putFrom toBeBytes_ascending codes (by rw [length]; omega)
  have none : (kept.drop (idx-start)).drop codes.length = [] := by
    rw [List.drop_drop,List.drop_of_length_le short]
  have place : start+(idx-start) = idx := by omega
  rw [length,place,none,List.append_nil,prefixed] at wrote
  exact wrote

end Entries

section Simulation
variable {T S : Type} [Bincode T] [Bincode (Option S)] [Bincode Ballot] [Bincode (Option StopSign)]

-- The database reads as the memory, and every number in it is a machine word.
structure Mirrors (m : MemoryStorage T S) (s : PersistentStorage T S) : Prop where
  log : Block toBeBytes s.db.log m.trimmedIdx (m.log.map code)
  promise : s.getPromise = .ok m.nProm
  acceptedRound : s.getAcceptedRound = .ok m.accRound
  decided : s.getDecidedIdx = .ok m.ld
  compacted : s.getCompactedIdx = .ok m.compactedIdx
  stopsign : s.getStopsign = .ok m.stopsign
  snapshot : s.getSnapshot = .ok m.snapshot
  fits : m.trimmedIdx+m.log.length < 2^64

-- A read of the state finds the last value written under its key.
section States
variable (s : PersistentStorage T S)

omit [Bincode T] [Bincode (Option S)] [Bincode (Option StopSign)] in
theorem getBallot_put [Bincode.Lossless Ballot] (key : StateKey) (ballot : Ballot) :
    ({s with db:=s.db.apply (.put key (code ballot))} : PersistentStorage T S).getBallot key = .ok (some ballot) := by
  simp only [getBallot,RocksDB.apply,KeyMap.insert_self,deserialize_code]
  rfl

omit [Bincode T] [Bincode (Option S)] [Bincode (Option StopSign)] [Bincode Ballot] in
theorem getIdx_put (key : StateKey) (fits : idx < 2^64) :
    ({s with db:=s.db.apply (.put key (asBytes idx))} : PersistentStorage T S).getIdx key = .ok idx := by
  simp only [getIdx,RocksDB.apply,KeyMap.insert_self,readFrom_asBytes fits]

omit [Bincode T] [Bincode (Option S)] [Bincode (Option StopSign)] [Bincode Ballot] in
theorem getOption_put [Bincode (Option α)] [Bincode.Lossless (Option α)] (key : StateKey) (value : Option α) :
    ({s with db:=s.db.apply (.put key (code value))} : PersistentStorage T S).getOption key = .ok value := by
  simp only [getOption,RocksDB.apply,KeyMap.insert_self,deserialize_code]

end States

section Puts
variable {m : MemoryStorage T S} {s : PersistentStorage T S}

theorem Mirrors.setPromise [Bincode.Lossless Ballot] (valid : Mirrors m s) (ballot : Ballot) :
    Mirrors {m with nProm:=some ballot} {s with db:=s.db.apply (.put .nprom (code ballot))} :=
  ⟨valid.log,getBallot_put s .nprom ballot,valid.acceptedRound,valid.decided,valid.compacted,valid.stopsign,
    valid.snapshot,valid.fits⟩

theorem Mirrors.setAcceptedRound [Bincode.Lossless Ballot] (valid : Mirrors m s) (ballot : Ballot) :
    Mirrors {m with accRound:=some ballot} {s with db:=s.db.apply (.put .acc (code ballot))} :=
  ⟨valid.log,valid.promise,getBallot_put s .acc ballot,valid.decided,valid.compacted,valid.stopsign,
    valid.snapshot,valid.fits⟩

theorem Mirrors.setDecidedIdx (valid : Mirrors m s) (fits : idx < 2^64) :
    Mirrors {m with ld:=idx} {s with db:=s.db.apply (.put .decide (asBytes idx))} :=
  ⟨valid.log,valid.promise,valid.acceptedRound,getIdx_put s .decide fits,valid.compacted,valid.stopsign,
    valid.snapshot,valid.fits⟩

theorem Mirrors.setCompactedIdx (valid : Mirrors m s) (fits : idx < 2^64) :
    Mirrors {m with compactedIdx:=idx} {s with db:=s.db.apply (.put .trim (asBytes idx))} :=
  ⟨valid.log,valid.promise,valid.acceptedRound,valid.decided,getIdx_put s .trim fits,valid.stopsign,
    valid.snapshot,valid.fits⟩

theorem Mirrors.setStopsign [Bincode.Lossless (Option StopSign)] (valid : Mirrors m s) (ss : Option StopSign) :
    Mirrors {m with stopsign:=ss} {s with db:=s.db.apply (.put .stopsign (code ss))} :=
  ⟨valid.log,valid.promise,valid.acceptedRound,valid.decided,valid.compacted,getOption_put s .stopsign ss,
    valid.snapshot,valid.fits⟩

theorem Mirrors.setSnapshot [Bincode.Lossless (Option S)] (valid : Mirrors m s) (snapshot : Option S) :
    Mirrors {m with snapshot:=snapshot} {s with db:=s.db.apply (.put .snapshot (code snapshot))} :=
  ⟨valid.log,valid.promise,valid.acceptedRound,valid.decided,valid.compacted,valid.stopsign,
    getOption_put s .snapshot snapshot,valid.fits⟩

theorem Mirrors.trim (valid : Mirrors m s) (ahead : m.trimmedIdx ≤ idx) (small : idx < 2^64) :
    Mirrors {m with log:=m.log.drop (idx-m.trimmedIdx),trimmedIdx:=idx}
      {s with db:=s.db.apply (.deleteRangeLog (toBeBytes 0) (toBeBytes idx))} := by
  have fits := valid.fits
  have kept := valid.log.trim toBeBytes_ascending ahead (by rw [List.length_map]; omega) small
  refine ⟨?_,valid.promise,valid.acceptedRound,valid.decided,valid.compacted,valid.stopsign,valid.snapshot,?_⟩
  · rw [List.map_drop]
    exact kept
  · simp only [List.length_drop]
    omega

-- The log of the memory cut at `idx` and continued, and the database with its log
-- deleted from the end of the new entries on and overwritten before.
theorem Mirrors.overwrite (valid : Mirrors m s) (entries : List T) (ahead : m.trimmedIdx ≤ idx)
    (within : idx ≤ m.trimmedIdx+m.log.length) (covers : m.log = [] ∨ m.trimmedIdx+m.log.length ≤ next)
    (small : next < 2^64) (fits : idx+entries.length < 2^64) :
    Mirrors {m with log:=m.log.take (idx-m.trimmedIdx)++entries}
      (withPuts (if idx+entries.length < next then
        {s with db:=s.db.apply (.deleteRangeLog (toBeBytes (idx+entries.length)) (toBeBytes next))} else s) idx entries) := by
  have block := overwrite_block valid.log (entries.map code) ahead (by rw [List.length_map]; exact within)
    (by rw [List.length_map]; exact covers.imp_left (congrArg (List.map code))) small (by rw [List.length_map]; exact fits)
  rw [List.length_map,←List.map_take,←List.map_append] at block
  have length : m.trimmedIdx+(m.log.take (idx-m.trimmedIdx)++entries).length < 2^64 := by
    rw [List.length_append,List.length_take]
    omega
  split at block
  · rename_i longer
    rw [if_pos longer]
    exact ⟨block,valid.promise,valid.acceptedRound,valid.decided,valid.compacted,valid.stopsign,valid.snapshot,length⟩
  · rename_i shorter
    rw [if_neg shorter]
    exact ⟨block,valid.promise,valid.acceptedRound,valid.decided,valid.compacted,valid.stopsign,valid.snapshot,length⟩

-- Appending is overwriting at the end.
theorem Mirrors.append (valid : Mirrors m s) (entries : List T) (fits : m.trimmedIdx+m.log.length+entries.length < 2^64) :
    Mirrors {m with log:=m.log++entries} (withPuts s (m.trimmedIdx+m.log.length) entries) := by
  have wrote := valid.overwrite entries (Nat.le_add_right ..) (Nat.le_refl _) (.inr (Nat.le_refl _)) (by omega) fits
  rw [Nat.add_sub_cancel_left,List.take_length,if_neg (Nat.not_lt.mpr (Nat.le_add_right ..))] at wrote
  exact wrote

end Puts

section Transactions
variable [Bincode.Lossless T]

theorem batch_append {m : MemoryStorage T S} {s : PersistentStorage T S} (valid : Mirrors m s.flush) (entries : List T)
    (last : s.nextLogKey = m.trimmedIdx+m.log.length) (fits : s.nextLogKey+entries.length < 2^64) :
    ∃ next, batchAppendEntries entries s = (.ok (),next) ∧ next.nextLogKey = s.nextLogKey+entries.length ∧
      Mirrors {m with log:=m.log++entries} next.flush := by
  obtain ⟨next,ran,key,flushed⟩ := batchAppendEntries_ok s entries fits
  refine ⟨next,ran,key,?_⟩
  rw [last] at fits
  rw [flushed,last]
  exact valid.append entries fits

theorem batch_overwrite {m : MemoryStorage T S} {s : PersistentStorage T S} (valid : Mirrors m s.flush) (entries : List T)
    (ahead : m.trimmedIdx ≤ idx) (within : idx ≤ m.trimmedIdx+m.log.length)
    (covers : m.log = [] ∨ m.trimmedIdx+m.log.length ≤ s.nextLogKey) (small : s.nextLogKey < 2^64)
    (fits : idx+entries.length < 2^64) :
    ∃ next, batchAppendOnPrefix idx entries s = (.ok (),next) ∧ next.nextLogKey = idx+entries.length ∧
      Mirrors {m with log:=m.log.take (idx-m.trimmedIdx)++entries} next.flush := by
  let cut : PersistentStorage T S := if idx+entries.length < s.nextLogKey then
    s.push (.deleteRangeLog (toBeBytes (idx+entries.length)) (toBeBytes s.nextLogKey)) else s
  obtain ⟨next,ran,key,flushed⟩ := batchAppendEntries_ok {cut with nextLogKey:=idx} entries fits
  refine ⟨next,?_,key,?_⟩
  · simp only [batchAppendOnPrefix,checkedAdd,if_pos fits]
    exact ran
  · have wrote := valid.overwrite entries ahead within covers small fits
    rw [flushed]
    simp only [cut]
    split at wrote
    · rename_i longer
      rw [if_pos longer]
      rw [←flush_push] at wrote
      exact wrote
    · rename_i shorter
      rw [if_neg shorter]
      exact wrote

variable [Bincode.Lossless (Option S)] [Bincode.Lossless Ballot] [Bincode.Lossless (Option StopSign)]

-- One operation in a transaction on both sides.
theorem batch_mirrors {m : MemoryStorage T S} {s : PersistentStorage T S} (valid : Mirrors m s.flush)
    (op : StorageOp T S) (ready : Ready m s.nextLogKey op) : ∃ next, batch op s = (.ok (),next) ∧
      next.nextLogKey = nextKey s.nextLogKey op ∧ Mirrors (MemoryStorage.perform op m).2 next.flush := by
  cases op with
  | appendEntry entry => exact batch_append valid [entry] ready.1 ready.2
  | appendEntries entries => exact batch_append valid entries ready.1 ready.2
  | appendOnPrefix fromIdx entries =>
    obtain ⟨ahead,within,covers,small,fits⟩ := ready
    rw [MemoryStorage.perform_appendOnPrefix m entries ahead]
    exact batch_overwrite valid entries ahead within covers small fits
  | setPromise ballot => exact ⟨_,batchPut_ok s _ ballot,rfl,flush_push s _ ▸ valid.setPromise ballot⟩
  | setDecidedIndex idx => exact ⟨_,rfl,rfl,flush_push s _ ▸ valid.setDecidedIdx ready⟩
  | setAcceptedRound ballot => exact ⟨_,batchPut_ok s _ ballot,rfl,flush_push s _ ▸ valid.setAcceptedRound ballot⟩
  | setCompactedIdx idx => exact ⟨_,rfl,rfl,flush_push s _ ▸ valid.setCompactedIdx ready⟩
  | trim idx =>
    rw [MemoryStorage.perform_trim m ready.1]
    exact ⟨_,rfl,rfl,flush_push s _ ▸ valid.trim ready.1 ready.2⟩
  | setStopsign ss => exact ⟨_,batchPut_ok s _ ss,rfl,flush_push s _ ▸ valid.setStopsign ss⟩
  | setSnapshot snapshot => exact ⟨_,batchPut_ok s _ snapshot,rfl,flush_push s _ ▸ valid.setSnapshot snapshot⟩

theorem write_mirrors {m m' : MemoryStorage T S} {s : PersistentStorage T S} (valid : Mirrors m s.flush)
    (txn : List (StorageOp T S)) (ready : ReadyAll m s.nextLogKey txn)
    (ran : MemoryStorage.writeAtomically txn m = (.ok (),m')) : ∃ next, writeAtomically txn s = (.ok (),next) ∧
      next.writeBatch = [] ∧ next.nextLogKey = txn.foldl nextKey s.nextLogKey ∧ Mirrors m' next := by
  induction txn generalizing m s with
  | nil =>
    cases ran
    exact ⟨s.flush,rfl,rfl,rfl,valid⟩
  | cons op rest ih =>
    obtain ⟨middle,wrote,key,mirrored⟩ := batch_mirrors valid op ready.1
    simp only [MemoryStorage.writeAtomically] at ran
    split at ran
    · rename_i after performed
      rw [performed] at mirrored
      have onward := ready.2
      rw [performed,←key] at onward
      obtain ⟨next,rested,idle,last,final⟩ := ih mirrored onward ran
      refine ⟨next,?_,idle,?_,final⟩
      · simp only [writeAtomically,wrote]
        exact rested
      · rw [last,key]
        rfl
    · cases ran

end Transactions
end Simulation

-- What the layer above asks of a back-end, with the transactions as it builds them.
inductive Request (T S : Type) where
  | appendEntries (entries : List T)
  | setPromise (ballot : Ballot)
  | setDecidedIdx (idx : Nat)
  | setStopsign (ss : Option StopSign)
  | tryTrim (idx : Nat)
  | trySnapshot (idx : Nat) (snapshot : S)
  | syncRound (acceptedRound : Ballot) (decidedIdx : Nat)
  | syncLog (cache : StateCache T) (acceptedRound : Ballot) (decidedIdx : Nat) (sync : LogSync T S) (snapshot : Option S)

def Request.perform [Storage B T S] : Request T S → StorageCall B Unit
  | .appendEntries entries => Storage.appendEntries entries
  | .setPromise ballot => Storage.setPromise ballot
  | .setDecidedIdx idx => Storage.setDecidedIdx idx
  | .setStopsign ss => Storage.setStopsign ss
  | .tryTrim idx => Storage.writeAtomically [.trim idx,.setCompactedIdx idx]
  | .trySnapshot idx snapshot => Storage.writeAtomically [.trim idx,.setCompactedIdx idx,.setSnapshot (some snapshot)]
  | .syncRound acceptedRound decidedIdx =>
    Storage.writeAtomically [.setAcceptedRound acceptedRound,.setDecidedIndex decidedIdx]
  | .syncLog cache acceptedRound decidedIdx sync snapshot => fun b => Storage.writeAtomically
    ([.setAcceptedRound acceptedRound,.setDecidedIndex decidedIdx]++
      InternalStorage.syncTxn (⟨b,cache⟩ : InternalStorage B T) sync snapshot) b

section Issued
variable {B T S : Type} [Storage B T S]

theorem append_storage (s : InternalStorage B T) (entries : List T) :
    (s.appendEntriesWithoutBatching entries).2.storage = (Storage.appendEntries entries s.storage).2 := by
  unfold InternalStorage.appendEntriesWithoutBatching
  split <;> rename_i wrote <;> rw [wrote]

theorem compact_storage (s : InternalStorage B T) (idx : Nat) (txn : List (StorageOp T S)) :
    (s.compact idx txn).2.storage = (Storage.writeAtomically txn s.storage).2 := by
  unfold InternalStorage.compact
  split <;> rename_i wrote <;> rw [wrote]

-- Whatever an operation does to its storage, it does by at most one request.
theorem operation_requests [Snapshot T S] (s : InternalStorage B T) (op : InternalStorage.Operation T S) :
    (op.perform s).2.storage = s.storage ∨
    ∃ request : Request T S, (op.perform s).2.storage = (request.perform s.storage).2 := by
  cases op with
  | appendEntriesAndGetAcceptedIdx entries =>
    simp only [InternalStorage.Operation.perform]
    rcases InternalStorage.appendBatched_cases s entries with ⟨_,grown⟩ | ⟨_,flushed⟩
    · rw [grown]
      exact .inl rfl
    · rw [flushed]
      exact .inr ⟨.appendEntries (s.stateCache.batchedEntries++entries),append_storage _ _⟩
  | flushBatch =>
    exact .inr ⟨.appendEntries s.stateCache.batchedEntries,append_storage _ _⟩
  | appendEntriesWithoutBatching entries => exact .inr ⟨.appendEntries entries,append_storage s entries⟩
  | syncLog acceptedRound decidedIdx logSync =>
    change (InternalStorage.syncLog acceptedRound decidedIdx logSync s).2.storage = _ ∨
      ∃ request : Request T S, (InternalStorage.syncLog acceptedRound decidedIdx logSync s).2.storage = _
    cases logSync with
    | none =>
      refine .inr ⟨.syncRound acceptedRound decidedIdx,?_⟩
      simp only [InternalStorage.syncLog]
      split <;> rename_i wrote <;> exact (congrArg (fun outcome => outcome.2.storage) wrote).symm
    | some sync =>
      simp only [InternalStorage.syncLog]
      split
      · exact .inl rfl
      · rename_i txn cache prepared
        split at prepared
        · cases prepared
        · rename_i snapshot built
          cases prepared
          refine .inr ⟨.syncLog s.stateCache acceptedRound decidedIdx sync snapshot,?_⟩
          split <;> rename_i wrote <;> exact (congrArg (fun outcome => outcome.2.storage) wrote).symm
  | tryTrim idx =>
    simp only [InternalStorage.Operation.perform,InternalStorage.tryTrim]
    split
    · exact .inl rfl
    · rename_i target found
      split
      · exact .inr ⟨.tryTrim target,compact_storage s target _⟩
      · exact .inl rfl
  | trySnapshot snapshotIdx =>
    simp only [InternalStorage.Operation.perform,InternalStorage.trySnapshot]
    split
    · exact .inl rfl
    · rename_i target found
      split
      · split
        · exact .inl rfl
        · rename_i snapshot built
          exact .inr ⟨.trySnapshot target snapshot,compact_storage s target _⟩
      · exact .inl rfl
  | setPromise ballot => exact .inr ⟨.setPromise ballot,rfl⟩
  | setDecidedIdx idx => exact .inr ⟨.setDecidedIdx idx,rfl⟩
  | setStopsign ss =>
    change (InternalStorage.setStopsign ss s).2.storage = _ ∨
      ∃ request : Request T S, (InternalStorage.setStopsign ss s).2.storage = _
    unfold InternalStorage.setStopsign
    split
    · exact .inl rfl
    · refine .inr ⟨.setStopsign ss,?_⟩
      change _ = (Storage.setStopsign ss s.storage).2
      dsimp only
      split <;> rename_i wrote <;> rw [wrote]

end Issued

section Agreement
variable {T S : Type} [Bincode T] [Bincode (Option S)] [Bincode Ballot] [Bincode (Option StopSign)]

-- How the two stand between requests.
structure Synced (m : MemoryStorage T S) (s : PersistentStorage T S) : Prop where
  mirrors : Mirrors m s
  idle : s.writeBatch = []
  last : s.nextLogKey = m.trimmedIdx+m.log.length
  trimmed : m.trimmedIdx = m.compactedIdx

-- Equal answers to every read. A range that ends before the compacted index makes
-- the memory's subtraction overflow; that call does not return.
structure Agree (m : MemoryStorage T S) (s : PersistentStorage T S) : Prop where
  entries : ∀ start stop, m.compactedIdx ≤ start →
    Storage.getEntries start stop m = .error .panic ∨ Storage.getEntries start stop s = Storage.getEntries start stop m
  returns : ∀ start stop, m.compactedIdx ≤ start → start ≤ stop → Storage.getEntries start stop m ≠ .error .panic
  suffix : ∀ start, m.compactedIdx ≤ start → Storage.getSuffix start s = Storage.getSuffix start m
  logLen : Storage.getLogLen s = Storage.getLogLen m
  compactedIdx : Storage.getCompactedIdx s = Storage.getCompactedIdx m
  decidedIdx : Storage.getDecidedIdx s = Storage.getDecidedIdx m
  promise : Storage.getPromise s = Storage.getPromise m
  acceptedRound : Storage.getAcceptedRound s = Storage.getAcceptedRound m
  stopsign : Storage.getStopsign s = Storage.getStopsign m
  snapshot : Storage.getSnapshot s = Storage.getSnapshot m

omit [Bincode (Option S)] [Bincode Ballot] [Bincode (Option StopSign)] in
theorem collect_cells [Bincode.Lossless T] (entries : List T) (start : Nat) (within : count ≤ entries.length) :
    collect count (cells toBeBytes start (entries.map code)) = .ok (entries.take count) := by
  induction entries generalizing start count with
  | nil => cases Nat.le_zero.mp within; rfl
  | cons entry rest ih =>
    cases count with
    | zero => rfl
    | succ count =>
      simp only [List.map_cons,cells,collect,deserialize_code,ih (start+1) (Nat.le_of_succ_le_succ within)]
      rfl

theorem Synced.getEntries_eq [Bincode.Lossless T] {m : MemoryStorage T S} {s : PersistentStorage T S} (synced : Synced m s)
    (ahead : m.trimmedIdx ≤ start) (later : m.trimmedIdx ≤ stop) : s.getEntries start stop = m.getEntries start stop := by
  have last := synced.last
  have fits := synced.mirrors.fits
  rw [m.getEntries_ok ahead later,PersistentStorage.getEntries]
  by_cases empty : s.nextLogKey < stop ∨ stop ≤ start
  · rw [if_pos empty]
    split
    · rename_i within
      have same : start = stop := by omega
      rw [same,List.drop_of_length_le (by rw [List.length_take]; omega)]
    · rfl
  · rw [if_neg empty,if_pos (by omega),synced.mirrors.log.seek toBeBytes_ascending ahead (by rw [List.length_map]; omega)
      (by omega),←List.map_drop,collect_cells _ _ (by rw [List.length_drop]; omega),List.drop_take]
    congr 2
    omega

theorem Synced.agree [Bincode.Lossless T] {m : MemoryStorage T S} {s : PersistentStorage T S} (synced : Synced m s) :
    Agree m s := by
  have trimmed := synced.trimmed
  have valid := synced.mirrors
  refine ⟨?_,?_,?_,?_,valid.compacted,valid.decided,valid.promise,valid.acceptedRound,valid.stopsign,valid.snapshot⟩
  · intro start stop ahead
    rw [←trimmed] at ahead
    by_cases later : m.trimmedIdx ≤ stop
    · exact .inr (synced.getEntries_eq ahead later)
    · refine .inl ?_
      change m.getEntries start stop = _
      simp only [MemoryStorage.getEntries,checkedSub,if_pos ahead,if_neg later]
      rfl
  · intro start stop ahead proper
    change m.getEntries start stop ≠ _
    rw [m.getEntries_ok (by omega) (by omega)]
    intro panics
    cases panics
  · intro start ahead
    rw [←trimmed] at ahead
    have last := synced.last
    have read : s.getEntries start s.nextLogKey = _ := synced.getEntries_eq ahead (by omega)
    change s.getEntries start s.nextLogKey = m.getSuffix start
    rw [read,m.getEntries_ok ahead (by omega),m.getSuffix_ok ahead,last,Nat.add_sub_cancel_left,List.take_length]
    split
    · rfl
    · rw [List.drop_of_length_le (by omega)]
  · change s.getLogLen = .ok m.log.length
    simp only [getLogLen,valid.compacted,bind,Except.bind,checkedSub,synced.last,trimmed]
    rw [if_pos (Nat.le_add_right ..),Nat.add_sub_cancel_left]

-- The last key of a log that is not empty, and else the compacted index, lead to
-- the end of the log.
theorem Synced.recover {m : MemoryStorage T S} {s : PersistentStorage T S} (synced : Synced m s) :
    recoverNextLogKey s.db = .ok (m.trimmedIdx+m.log.length) := by
  have fits := synced.mirrors.fits
  have final := synced.mirrors.log.last
  rw [List.length_map] at final
  unfold recoverNextLogKey
  by_cases empty : m.log = []
  · rw [if_pos (empty ▸ rfl),Option.map_eq_none_iff] at final
    have compacted : s.getIdx .trim = .ok m.compactedIdx := synced.mirrors.compacted
    rw [final,empty,synced.trimmed]
    unfold getIdx at compacted
    dsimp only
    cases stored : s.db.state .trim with
    | none => rw [stored] at compacted; exact compacted
    | some bytes =>
      rw [stored] at compacted
      dsimp only at compacted ⊢
      cases read : readFrom bytes with
      | none => rw [read] at compacted; cases compacted
      | some idx => rw [read] at compacted; exact compacted
  · have filled : ¬ m.log.map code = [] := fun none => empty (List.map_eq_nil_iff.mp none)
    rw [if_neg filled] at final
    obtain ⟨⟨key,value⟩,last,same⟩ := Option.map_eq_some_iff.mp final
    have positive : 0 < m.log.length := List.length_pos_iff.mpr empty
    have number : ofBigEndian key = m.trimmedIdx+m.log.length-1 := by
      rw [show key = _ from same]
      exact ofBigEndian_toBeBytes (by omega)
    have length : key.length = 8 := by
      rw [show key = _ from same]
      exact length_bigEndian ..
    have back : m.trimmedIdx+m.log.length-1+1 = m.trimmedIdx+m.log.length := by omega
    rw [last]
    dsimp only
    rw [if_pos length,number,checkedAdd,back,if_pos fits]

theorem Synced.reopen {m : MemoryStorage T S} {s : PersistentStorage T S} (synced : Synced m s) :
    openStorage s.db = .ok s := by
  rw [openStorage,synced.recover,←synced.last]
  obtain ⟨db,batch,next⟩ := s
  cases synced.idle
  rfl

section Requests
variable {m m' : MemoryStorage T S} {s : PersistentStorage T S}

-- A compaction within the log leaves its end where it was.
theorem Synced.ends (synced : Synced m s) (ahead : m.compactedIdx ≤ idx) (within : idx ≤ m.logEnd) :
    m.trimmedIdx ≤ idx ∧ idx < 2^64 ∧ s.nextLogKey = idx+(m.log.drop (idx-m.trimmedIdx)).length := by
  have fits := synced.mirrors.fits
  have trimmed := synced.trimmed
  have last := synced.last
  unfold MemoryStorage.logEnd at within
  rw [List.length_drop]
  omega

theorem Synced.tryTrim (synced : Synced m s) (ahead : m.compactedIdx ≤ idx) (within : idx ≤ m.logEnd) :
    Carries m s.nextLogKey [.trim idx,.setCompactedIdx idx] (m.compactTo idx)
      ((m.compactTo idx).trimmedIdx+(m.compactTo idx).log.length) := by
  obtain ⟨reached,small,key⟩ := synced.ends ahead within
  have carried := carries_compaction m s.nextLogKey reached small
  exact ⟨carried.ready,carried.ran,key⟩

theorem Synced.trySnapshot (synced : Synced m s) (snapshot : S) (ahead : m.compactedIdx ≤ idx) (within : idx ≤ m.logEnd) :
    Carries m s.nextLogKey [.trim idx,.setCompactedIdx idx,.setSnapshot (some snapshot)]
      {m.compactTo idx with snapshot:=some snapshot} ((m.compactTo idx).trimmedIdx+(m.compactTo idx).log.length) := by
  obtain ⟨reached,small,key⟩ := synced.ends ahead within
  have carried := carries_snapshot m s.nextLogKey snapshot reached small
  exact ⟨carried.ready,carried.ran,key⟩

-- A sync cuts the log where its snapshot, if it brings one, ends.
theorem Synced.syncLog (synced : Synced m s) (cache : StateCache T) (acceptedRound : Ballot) (sync : LogSync T S)
    (snapshot : Option S) (ahead : m.trimmedIdx ≤ sync.syncIdx) (short : snapshot = none → sync.syncIdx ≤ m.logEnd)
    (small : decidedIdx < 2^64) (fits : sync.syncIdx+sync.suffix.length < 2^64) : ∃ m' : MemoryStorage T S,
    Carries m s.nextLogKey ([.setAcceptedRound acceptedRound,.setDecidedIndex decidedIdx]++
      InternalStorage.syncTxn (⟨m,cache⟩ : InternalStorage (MemoryStorage T S) T) sync snapshot) m'
      (m'.trimmedIdx+m'.log.length) ∧ m'.trimmedIdx = m'.compactedIdx := by
  have last := synced.last
  have trimmed := synced.trimmed
  have bound := synced.mirrors.fits
  have opening := carries_opening m s.nextLogKey acceptedRound small
  let opened : MemoryStorage T S := {m with accRound:=some acceptedRound,ld:=decidedIdx}
  cases snapshot with
  | none =>
    have within : sync.syncIdx ≤ m.trimmedIdx+m.log.length := by
      have stored := short rfl
      unfold MemoryStorage.logEnd at stored
      omega
    have overwrites := carries_overwrite (n := s.nextLogKey) opened sync.suffix ahead within
      (.inr (Nat.le_of_eq last.symm)) (by omega) fits
    obtain ⟨ss,stops⟩ := carries_stopsign {opened with log:=m.log.take (sync.syncIdx-m.trimmedIdx)++sync.suffix}
      (sync.syncIdx+sync.suffix.length) sync.stopsign cache.stopsign
    have carried := opening.append (overwrites.append stops)
    refine ⟨_,⟨carried.ready,carried.ran,carried.key.trans ?_⟩,trimmed⟩
    simp only [opened,List.length_append,List.length_take]
    omega
  | some snapshot =>
    have installs := carries_snapshot opened s.nextLogKey snapshot ahead (by omega)
    let installed : MemoryStorage T S := {opened.compactTo sync.syncIdx with snapshot:=some snapshot}
    -- Past the end of the log the trim leaves the next key behind, and no entry.
    have covers : installed.log = [] ∨ installed.trimmedIdx+installed.log.length ≤ s.nextLogKey := by
      change m.log.drop (sync.syncIdx-m.trimmedIdx) = [] ∨
        sync.syncIdx+(m.log.drop (sync.syncIdx-m.trimmedIdx)).length ≤ s.nextLogKey
      rcases Nat.le_total sync.syncIdx (m.trimmedIdx+m.log.length) with within | past
      · rw [List.length_drop]
        exact .inr (by omega)
      · exact .inl (List.drop_of_length_le (by omega))
    have overwrites := carries_overwrite installed sync.suffix (Nat.le_refl sync.syncIdx) (Nat.le_add_right ..) covers
      (by omega) fits
    obtain ⟨ss,stops⟩ := carries_stopsign {installed with log:=installed.log.take (sync.syncIdx-sync.syncIdx)++sync.suffix}
      (sync.syncIdx+sync.suffix.length) sync.stopsign cache.stopsign
    have carried := opening.append (installs.append (overwrites.append stops))
    refine ⟨_,⟨carried.ready,carried.ran,carried.key.trans ?_⟩,rfl⟩
    simp only [installed,MemoryStorage.compactTo,List.length_append,List.length_take]
    omega

theorem Synced.put [Bincode α] [Bincode.Lossless α] (synced : Synced m s) (key : StateKey) (value : α)
    (mirrors : Mirrors m' {s with db:=s.db.apply (.put key (code value))}) (log : m'.log = m.log)
    (trimmed : m'.trimmedIdx = m.trimmedIdx) (compacted : m'.compactedIdx = m.compactedIdx) :
    ∃ next, PersistentStorage.put key value s = (.ok (),next) ∧ Synced m' next := by
  refine ⟨_,by simp only [PersistentStorage.put,serialize_code],mirrors,synced.idle,?_,?_⟩
  · rw [log,trimmed]
    exact synced.last
  · rw [trimmed,compacted]
    exact synced.trimmed

variable [Bincode.Lossless T]

theorem Synced.append (synced : Synced m s) (entries : List T) (fits : m.logEnd+entries.length < 2^64) :
    ∃ next, PersistentStorage.appendEntries entries s = (.ok (),next) ∧ Synced {m with log:=m.log++entries} next := by
  have last := synced.last
  have ends : s.nextLogKey = m.logEnd := by rw [last,synced.trimmed,MemoryStorage.logEnd,Nat.add_comm]
  rw [←ends] at fits
  refine ⟨_,appendEntries_ok s entries fits,?_,synced.idle,?_,synced.trimmed⟩
  · rw [last] at fits ⊢
    exact synced.mirrors.append entries fits
  · simp only [withPuts,List.length_append,last]
    omega

variable [Bincode.Lossless (Option S)] [Bincode.Lossless Ballot] [Bincode.Lossless (Option StopSign)]

-- A transaction that leaves the next key at the end of the log.
theorem Synced.write (synced : Synced m s) (carries : Carries m s.nextLogKey txn m' (m'.trimmedIdx+m'.log.length))
    (trimmed : m'.trimmedIdx = m'.compactedIdx) :
    ∃ next, PersistentStorage.writeAtomically txn s = (.ok (),next) ∧ Synced m' next := by
  have valid : Mirrors m s.flush := by
    rw [flush_idle synced.idle]
    exact synced.mirrors
  obtain ⟨next,wrote,idle,key,mirrored⟩ := write_mirrors valid txn carries.ready carries.ran
  exact ⟨next,wrote,mirrored,idle,key.trans carries.key,trimmed⟩

-- The two back-ends, and what is done to both. A request that the memory does not
-- survive ends the run; the database is closed and opened again at any time.
inductive Act (T S : Type) where
  | request (request : Request T S)
  | reopen

def step (pair : MemoryStorage T S × PersistentStorage T S) : Act T S → Option (MemoryStorage T S × PersistentStorage T S)
  | .request request => match request.perform pair.1 with
    | (.ok (),m) => some (m,(request.perform pair.2).2)
    | (.error _,_) => none
  | .reopen => match openStorage pair.2.db with
    | .ok s => some (pair.1,s)
    | .error _ => none

-- A compaction does not go back; an index lies within the log unless a snapshot
-- comes with it; numbers are machine words.
def Permitted (pair : MemoryStorage T S × PersistentStorage T S) : Act T S → Prop
  | .request (.appendEntries entries) => pair.1.logEnd+entries.length < 2^64
  | .request (.setDecidedIdx idx) => idx < 2^64
  | .request (.tryTrim idx) => pair.1.compactedIdx ≤ idx ∧ idx ≤ pair.1.logEnd
  | .request (.trySnapshot idx _) => pair.1.compactedIdx ≤ idx ∧ idx ≤ pair.1.logEnd
  | .request (.syncRound _ decidedIdx) => decidedIdx < 2^64
  | .request (.syncLog _ _ decidedIdx sync none) =>
    decidedIdx < 2^64 ∧ sync.syncIdx+sync.suffix.length < 2^64 ∧ sync.syncIdx ≤ pair.1.logEnd
  | .request (.syncLog _ _ decidedIdx sync (some _)) =>
    decidedIdx < 2^64 ∧ sync.syncIdx+sync.suffix.length < 2^64 ∧ pair.1.compactedIdx ≤ sync.syncIdx
  | _ => True

theorem Synced.request (synced : Synced m s) (request : Request T S) (permitted : Permitted (m,s) (.request request))
    (ran : request.perform m = (.ok (),m')) : ∃ next, request.perform s = (.ok (),next) ∧ Synced m' next := by
  have valid := synced.mirrors
  cases request with
  | appendEntries entries => cases ran; exact synced.append entries permitted
  | setPromise ballot => cases ran; exact synced.put .nprom ballot (valid.setPromise ballot) rfl rfl rfl
  | setDecidedIdx idx =>
    cases ran
    exact ⟨_,rfl,valid.setDecidedIdx permitted,synced.idle,synced.last,synced.trimmed⟩
  | setStopsign ss => cases ran; exact synced.put .stopsign ss (valid.setStopsign ss) rfl rfl rfl
  | tryTrim idx =>
    have carried := synced.tryTrim permitted.1 permitted.2
    cases carried.ran.symm.trans ran
    exact synced.write carried rfl
  | trySnapshot idx snapshot =>
    have carried := synced.trySnapshot snapshot permitted.1 permitted.2
    cases carried.ran.symm.trans ran
    exact synced.write carried rfl
  | syncRound acceptedRound decidedIdx =>
    have carried := carries_opening m s.nextLogKey acceptedRound permitted
    cases carried.ran.symm.trans ran
    exact synced.write ⟨carried.ready,carried.ran,synced.last⟩ synced.trimmed
  | syncLog cache acceptedRound decidedIdx sync snapshot =>
    have reached : m.trimmedIdx ≤ sync.syncIdx ∧ (snapshot = none → sync.syncIdx ≤ m.logEnd) := by
      cases snapshot with
      | none => exact ⟨sync_ahead cache sync ran,fun _ => permitted.2.2⟩
      | some _ => exact ⟨synced.trimmed ▸ permitted.2.2,nofun⟩
    have words : decidedIdx < 2^64 ∧ sync.syncIdx+sync.suffix.length < 2^64 := by
      cases snapshot with
      | none => exact ⟨permitted.1,permitted.2.1⟩
      | some _ => exact ⟨permitted.1,permitted.2.1⟩
    obtain ⟨final,carried,trimmed⟩ := synced.syncLog cache acceptedRound sync snapshot reached.1 reached.2 words.1 words.2
    cases carried.ran.symm.trans ran
    exact synced.write carried trimmed

end Requests

section Runs

theorem synced_open {first : PersistentStorage T S} (opened : openStorage {} = .ok first) : Synced {} first := by
  cases opened
  exact ⟨⟨rfl,rfl,rfl,rfl,rfl,rfl,rfl,Nat.two_pow_pos 64⟩,rfl,rfl,rfl⟩

variable [Bincode.Lossless T] [Bincode.Lossless (Option S)] [Bincode.Lossless Ballot] [Bincode.Lossless (Option StopSign)]

theorem synced_step {pair next : MemoryStorage T S × PersistentStorage T S} (synced : Synced pair.1 pair.2)
    (permitted : Permitted pair action) (ran : step pair action = some next) : Synced next.1 next.2 := by
  cases action with
  | request request =>
    simp only [step] at ran
    split at ran
    · rename_i m performed
      obtain ⟨s,wrote,kept⟩ := synced.request request permitted performed
      rw [wrote] at ran
      cases Option.some.inj ran
      exact kept
    · cases ran
  | reopen =>
    simp only [step,synced.reopen] at ran
    cases Option.some.inj ran
    exact synced

-- Started empty, given the same requests and opened again in between, the two
-- answer every read alike, and the database neither fails a write nor a recovery.
theorem backends_agree (first : PersistentStorage T S) (actions : List (Act T S)) (m : MemoryStorage T S)
    (s : PersistentStorage T S) (opened : openStorage {} = .ok first)
    (path : Machine.Runs step Permitted ({},first) actions (m,s)) :
    Agree m s ∧ openStorage s.db = .ok s ∧ ∀ request : Request T S, Permitted (m,s) (.request request) →
      (request.perform m).1 = .ok () → (request.perform s).1 = .ok () := by
  have synced : Synced m s := path.invariant (fun pair => Synced pair.1 pair.2)
    (fun _ _ _ synced permitted ran => synced_step synced permitted ran) (synced_open opened)
  refine ⟨synced.agree,synced.reopen,?_⟩
  intro request permitted returned
  obtain ⟨next,wrote,_⟩ := synced.request request permitted (Prod.ext returned rfl)
  rw [wrote]

end Runs
end Agreement

-- The serializer's layout for bytes, byte strings, options and ballots: numbers
-- with the least byte first, a tag before an option, a length before a string.
-- Values beyond the machine's words, which only the model has, are told by length.
section Sample

instance : Bincode UInt8 where
  serialize byte := .ok [byte]
  deserialize
    | [byte] => .ok byte
    | _ => .error .backend

instance : Bincode (List UInt8) where
  serialize bytes := .ok (asBytes bytes.length++bytes)
  deserialize bytes := .ok (bytes.drop 8)

instance [Bincode α] : Bincode (Option α) where
  serialize
    | none => .ok [0]
    | some value => (Bincode.serialize value).map fun bytes => 1::bytes
  deserialize
    | 0::_ => .ok none
    | 1::bytes => (Bincode.deserialize bytes).map some
    | _ => .error .backend

-- A stop-sign is told by the length of its code; the run below writes none.
instance : Encodable StopSign := Encodable.ofLeftInverse
  (fun ss => (ss.nextConfig.configurationId,ss.nextConfig.nodes,
    ss.nextConfig.flexibleQuorum.map fun quorum => (quorum.readQuorumSize,quorum.writeQuorumSize),
    ss.metadata.map fun bytes => bytes.map UInt8.toNat))
  (fun (configurationId,nodes,quorum,metadata) =>
    ⟨⟨configurationId,nodes,quorum.map fun sizes => ⟨sizes.1,sizes.2⟩⟩,metadata.map fun bytes => bytes.map UInt8.ofNat⟩)
  (by
    rintro ⟨⟨configurationId,nodes,quorum⟩,metadata⟩
    cases quorum <;> cases metadata <;> simp [Function.comp_def])

instance : Bincode StopSign where
  serialize ss := .ok (List.replicate (Encodable.encode ss) 0)
  deserialize bytes := match Encodable.decode bytes.length with
    | some ss => .ok ss
    | none => .error .backend

def wordBallot (b : Ballot) : Bool := b.configId < 2^32 && b.n < 2^32 && b.priority < 2^32 && b.pid < 2^64

def ballotBytes (b : Ballot) : Bytes :=
  bigEndian 8 b.pid++bigEndian 4 b.priority++bigEndian 4 b.n++bigEndian 4 b.configId

instance : Bincode Ballot where
  serialize b := if wordBallot b then .ok (ballotBytes b).reverse
    else .ok (List.replicate (21+Encodable.encode (b.configId,b.n,b.priority,b.pid)) 0)
  deserialize bytes := if bytes.length = 20 then
      let high := bytes.reverse
      .ok ⟨ofBigEndian (high.drop 16),ofBigEndian ((high.drop 12).take 4),ofBigEndian ((high.drop 8).take 4),
        ofBigEndian (high.take 8)⟩
    else match (Encodable.decode (bytes.length-21) : Option (Nat × Nat × Nat × Nat)) with
      | some (configId,n,priority,pid) => .ok ⟨configId,n,priority,pid⟩
      | none => .error .backend

instance : Bincode.Lossless UInt8 := ⟨fun _ => ⟨_,rfl,rfl⟩⟩

instance : Bincode.Lossless (List UInt8) := by
  refine ⟨fun bytes => ⟨_,rfl,?_⟩⟩
  have length : (asBytes bytes.length).length = 8 := by rw [asBytes,List.length_reverse,toBeBytes,length_bigEndian]
  simp only [Bincode.deserialize]
  rw [List.drop_append_of_le_length (Nat.le_of_eq length.symm),List.drop_of_length_le (Nat.le_of_eq length),List.nil_append]

instance [Bincode α] [Bincode.Lossless α] : Bincode.Lossless (Option α) := by
  refine ⟨fun value => ?_⟩
  cases value with
  | none => exact ⟨[0],rfl,rfl⟩
  | some value =>
    obtain ⟨bytes,written,read⟩ := Bincode.Lossless.round_trip value
    refine ⟨1::bytes,?_,?_⟩
    · change (Bincode.serialize value).map _ = _
      rw [written]
      rfl
    · change (Bincode.deserialize bytes).map some = _
      rw [read]
      rfl

instance : Bincode.Lossless StopSign := by
  refine ⟨fun ss => ⟨_,rfl,?_⟩⟩
  simp only [Bincode.deserialize,List.length_replicate,Encodable.encodek]

instance : Bincode.Lossless Ballot := by
  refine ⟨fun b => ?_⟩
  by_cases words : wordBallot b = true
  · refine ⟨(ballotBytes b).reverse,if_pos words,?_⟩
    simp only [wordBallot,Bool.and_eq_true,decide_eq_true_eq] at words
    obtain ⟨⟨⟨configId,n⟩,priority⟩,pid⟩ := words
    have length : (ballotBytes b).reverse.length = 20 := by
      simp only [ballotBytes,List.length_reverse,List.length_append,length_bigEndian]
    have fields : (ballotBytes b).drop 16 = bigEndian 4 b.configId ∧ ((ballotBytes b).drop 12).take 4 = bigEndian 4 b.n ∧
        ((ballotBytes b).drop 8).take 4 = bigEndian 4 b.priority ∧ (ballotBytes b).take 8 = bigEndian 8 b.pid := by
      simp [ballotBytes,List.drop_append,List.drop_of_length_le,length_bigEndian]
    simp only [Bincode.deserialize,if_pos length,List.reverse_reverse,fields]
    rw [ofBigEndian_bigEndian configId,ofBigEndian_bigEndian n,ofBigEndian_bigEndian priority,ofBigEndian_bigEndian pid]
  · refine ⟨_,if_neg words,?_⟩
    simp only [Bincode.deserialize,List.length_replicate]
    rw [if_neg (by omega),Nat.add_sub_cancel_left,Encodable.encodek]

-- Entries are appended, decided and snapshotted, the database is opened again, and
-- a sync brings a snapshot beyond the end of the log.
def sampleRequests : List (Act UInt8 (List UInt8)) :=
  [.request (.setPromise ⟨1,1,0,2⟩),.request (.appendEntries [10,11,12]),.request (.setDecidedIdx 2),
    .request (.trySnapshot 2 [10,11]),.reopen,
    .request (.syncLog {batchSize:=1} ⟨1,1,0,2⟩ 6 ⟨some (.complete [1,2,3,4,5,6]),[17,18],6,none⟩ (some [1,2,3,4,5,6])),
    .reopen]

instance (pair : MemoryStorage T S × PersistentStorage T S) (action : Act T S) : Decidable (Permitted pair action) :=
  match action with
  | .request (.appendEntries _) => inferInstanceAs (Decidable (_ < _))
  | .request (.setPromise _) => inferInstanceAs (Decidable True)
  | .request (.setDecidedIdx _) => inferInstanceAs (Decidable (_ < _))
  | .request (.setStopsign _) => inferInstanceAs (Decidable True)
  | .request (.tryTrim _) => inferInstanceAs (Decidable (_ ∧ _))
  | .request (.trySnapshot _ _) => inferInstanceAs (Decidable (_ ∧ _))
  | .request (.syncRound _ _) => inferInstanceAs (Decidable (_ < _))
  | .request (.syncLog _ _ _ _ none) => inferInstanceAs (Decidable (_ ∧ _ ∧ _))
  | .request (.syncLog _ _ _ _ (some _)) => inferInstanceAs (Decidable (_ ∧ _ ∧ _))
  | .reopen => inferInstanceAs (Decidable True)

theorem backends_agree_synced : ∃ m s, Machine.Runs step Permitted ({},⟨{},[],0⟩) sampleRequests (m,s) ∧
    m.log = [17,18] ∧ m.compactedIdx = 6 ∧ s.nextLogKey = 8 ∧ Agree m s := by
  obtain ⟨⟨m,s⟩,path,log,compacted,key⟩ := Machine.run_reaches step Permitted
    (fun pair : MemoryStorage UInt8 (List UInt8) × PersistentStorage UInt8 (List UInt8) =>
      pair.1.log = [17,18] ∧ pair.1.compactedIdx = 6 ∧ pair.2.nextLogKey = 8) ({},⟨{},[],0⟩) sampleRequests (by decide +kernel)
  exact ⟨m,s,path,log,compacted,key,(backends_agree ⟨{},[],0⟩ sampleRequests m s rfl path).1⟩

end Sample

end Backends
end OmniPaxosKV

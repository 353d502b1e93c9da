import OmniPaxosKV.Backends

-- Reads of a range of the log, from both back-ends. The log as it would be had it
-- never been trimmed says which entries a range has and which of them are stored.
namespace OmniPaxosKV.Intervals
open Backends PersistentStorage

-- The calls that change the log. A trim comes with the compacted index.
inductive Op (T : Type) where
  | appendEntry (entry : T)
  | appendEntries (entries : List T)
  | appendOnPrefix (fromIdx : Nat) (entries : List T)
  | trim (idx : Nat)

-- Every entry from index 0 on, and how many of the first ones have been trimmed.
structure Ledger (T : Type) where
  entries : List T := []
  trimmed : Nat := 0

namespace Ledger
variable {T : Type}

def perform (l : Ledger T) : Op T → Ledger T
  | .appendEntry entry => {l with entries:=l.entries++[entry]}
  | .appendEntries entries => {l with entries:=l.entries++entries}
  | .appendOnPrefix fromIdx entries => {l with entries:=l.entries.take fromIdx++entries}
  | .trim idx => {l with trimmed:=idx}

def stored (l : Ledger T) (idx : Nat) : Option T := if l.trimmed ≤ idx then l.entries[idx]? else none

-- The entries of a range if every one of them is stored, and else none.
def interval (l : Ledger T) (start stop : Nat) : List T :=
  ((List.range' start (stop-start)).mapM l.stored).getD []

def suffix (l : Ledger T) (start : Nat) : List T := l.interval start l.entries.length

-- An overwrite starts between the trimmed part and the end, a trim does not go
-- back or past the end, and indices are machine words.
def Permits (l : Ledger T) : Op T → Prop
  | .appendEntry _ => l.entries.length+1 < 2^64
  | .appendEntries entries => l.entries.length+entries.length < 2^64
  | .appendOnPrefix fromIdx entries =>
    l.trimmed ≤ fromIdx ∧ fromIdx ≤ l.entries.length ∧ fromIdx+entries.length < 2^64
  | .trim idx => l.trimmed ≤ idx ∧ idx ≤ l.entries.length

def PermitsAll (l : Ledger T) : List (Op T) → Prop
  | [] => True
  | op::rest => l.Permits op ∧ PermitsAll (l.perform op) rest

theorem interval_empty (l : Ledger T) (inverted : stop ≤ start) : l.interval start stop = [] := by
  rw [interval,Nat.sub_eq_zero_of_le inverted]
  rfl

theorem mapM_stored (l : Ledger T) (ahead : l.trimmed ≤ start) (within : start+count ≤ l.entries.length) :
    (List.range' start count).mapM l.stored = some ((l.entries.drop start).take count) := by
  induction count generalizing start with
  | zero => rfl
  | succ count ih =>
    have found : l.entries[start]? = some (l.entries.get ⟨start,by omega⟩) := List.getElem?_eq_getElem _
    have first : l.stored start = some (l.entries.get ⟨start,by omega⟩) := by
      rw [stored,if_pos ahead,found]
    have split : l.entries.drop start = l.entries.get ⟨start,by omega⟩::l.entries.drop (start+1) :=
      List.drop_eq_getElem_cons (by omega)
    rw [List.range'_succ,List.mapM_cons,first,ih (by omega) (by omega),split,List.take_succ_cons]
    rfl

theorem interval_stored (l : Ledger T) (ahead : l.trimmed ≤ start) (within : stop ≤ l.entries.length) :
    l.interval start stop = (l.entries.drop start).take (stop-start) := by
  rcases Nat.le_total stop start with inverted | proper
  · rw [l.interval_empty inverted,Nat.sub_eq_zero_of_le inverted,List.take_zero]
  · rw [interval,l.mapM_stored ahead (by omega),Option.getD_some]

theorem mapM_missing {xs : List α} {read : α → Option β} (member : x ∈ xs) (missing : read x = none) : xs.mapM read = none := by
  induction xs with
  | nil => cases member
  | cons first rest ih =>
    rw [List.mapM_cons]
    rcases List.mem_cons.mp member with rfl | later
    · rw [missing]
      rfl
    · rw [ih later]
      cases read first <;> rfl

-- One index of the range that is not stored empties the answer.
theorem interval_missing (l : Ledger T) (later : start ≤ idx) (earlier : idx < stop) (missing : l.stored idx = none) :
    l.interval start stop = [] := by
  have member : idx ∈ List.range' start (stop-start) := List.mem_range'_1.mpr ⟨later,by omega⟩
  rw [interval,mapM_missing member missing,Option.getD_none]

theorem interval_trimmed (l : Ledger T) (behind : start < l.trimmed) : l.interval start stop = [] := by
  rcases Nat.lt_or_ge start stop with proper | inverted
  · exact l.interval_missing (Nat.le_refl start) proper (if_neg (Nat.not_le.mpr behind))
  · exact l.interval_empty inverted

theorem interval_past (l : Ledger T) (past : l.entries.length < stop) : l.interval start stop = [] := by
  rcases Nat.lt_or_ge start stop with proper | inverted
  · refine l.interval_missing (Nat.le_sub_one_of_lt proper) (by omega) ?_
    rw [stored,List.getElem?_eq_none (by omega),ite_self]
  · exact l.interval_empty inverted

end Ledger

variable {T S : Type}

def Op.storageOps : Op T → List (StorageOp T S)
  | .appendEntry entry => [.appendEntry entry]
  | .appendEntries entries => [.appendEntries entries]
  | .appendOnPrefix fromIdx entries => [.appendOnPrefix fromIdx entries]
  | .trim idx => [.trim idx,.setCompactedIdx idx]

-- The database's own methods, outside of a transaction.
def Op.call [Bincode T] : Op T → StorageCall (PersistentStorage T S) Unit
  | .appendEntry entry => PersistentStorage.appendEntry entry
  | .appendEntries entries => PersistentStorage.appendEntries entries
  | .appendOnPrefix fromIdx entries => PersistentStorage.appendOnPrefix fromIdx entries
  | .trim idx => fun s => match PersistentStorage.trim idx s with
    | (.ok (),s) => setCompactedIdx idx s
    | (.error fault,s) => (.error fault,s)

-- Both back-ends, with what has been written to them.
structure World (T S : Type) where
  ledger : Ledger T := {}
  memory : MemoryStorage T S := {}
  database : PersistentStorage T S

inductive Act (T : Type) where
  | direct (op : Op T)
  | atomically (ops : List (Op T))

section Memory
variable {l : Ledger T} {m : MemoryStorage T S}

structure Holds (l : Ledger T) (m : MemoryStorage T S) : Prop where
  log : m.log = l.entries.drop l.trimmed
  trimmed : m.trimmedIdx = l.trimmed
  compacted : m.compactedIdx = l.trimmed
  within : l.trimmed ≤ l.entries.length
  fits : l.entries.length < 2^64

theorem Holds.ends (holds : Holds l m) : m.trimmedIdx+m.log.length = l.entries.length := by
  have within := holds.within
  rw [holds.log,holds.trimmed,List.length_drop]
  omega

theorem Holds.overwrite (holds : Holds l m) (entries : List T) (ahead : l.trimmed ≤ idx) (within : idx ≤ l.entries.length)
    (fits : idx+entries.length < 2^64) : Holds {l with entries:=l.entries.take idx++entries}
      {m with log:=m.log.take (idx-m.trimmedIdx)++entries} := by
  have length : (l.entries.take idx++entries).length = idx+entries.length := by
    rw [List.length_append,List.length_take,Nat.min_eq_left within]
  refine ⟨?_,holds.trimmed,holds.compacted,?_,?_⟩
  · have kept : l.trimmed ≤ (l.entries.take idx).length := by
      rw [List.length_take]
      omega
    rw [List.drop_append_of_le_length kept,List.drop_take,holds.log,holds.trimmed]
  · change l.trimmed ≤ _
    rw [length]
    omega
  · rw [length]
    exact fits

theorem Holds.append (holds : Holds l m) (entries : List T) (fits : l.entries.length+entries.length < 2^64) :
    Holds {l with entries:=l.entries++entries} {m with log:=m.log++entries} := by
  have wrote := holds.overwrite entries holds.within (Nat.le_refl _) fits
  rw [←holds.ends,Nat.add_sub_cancel_left,List.take_length,holds.ends,List.take_length] at wrote
  exact wrote

theorem Holds.trim (holds : Holds l m) (ahead : l.trimmed ≤ idx) (within : idx ≤ l.entries.length) :
    Holds {l with trimmed:=idx} (m.compactTo idx) := by
  refine ⟨?_,rfl,rfl,within,holds.fits⟩
  simp only [MemoryStorage.compactTo,holds.log,holds.trimmed,List.drop_drop]
  congr 1
  omega

-- One operation on the memory, ready to be carried over to the database.
theorem Holds.perform (holds : Holds l m) (op : Op T) (permitted : l.Permits op) : ∃ m' : MemoryStorage T S,
    Carries m l.entries.length op.storageOps m' (l.perform op).entries.length ∧ Holds (l.perform op) m' := by
  have ends := holds.ends
  have bound := holds.fits
  cases op with
  | appendEntry entry =>
    have length : (l.entries++[entry]).length = l.entries.length+1 := List.length_append
    exact ⟨_,⟨⟨⟨ends.symm,permitted⟩,trivial⟩,rfl,length.symm⟩,holds.append [entry] permitted⟩
  | appendEntries entries =>
    exact ⟨_,⟨⟨⟨ends.symm,permitted⟩,trivial⟩,rfl,List.length_append.symm⟩,holds.append entries permitted⟩
  | appendOnPrefix fromIdx entries =>
    obtain ⟨ahead,within,fits⟩ := permitted
    have carried := carries_overwrite m entries (holds.trimmed ▸ ahead) (ends ▸ within) (.inr (Nat.le_of_eq ends)) bound fits
    refine ⟨_,⟨carried.ready,carried.ran,carried.key.trans ?_⟩,holds.overwrite entries ahead within fits⟩
    simp only [Ledger.perform,List.length_append,List.length_take]
    omega
  | trim idx =>
    obtain ⟨ahead,within⟩ := permitted
    exact ⟨_,carries_compaction m _ (holds.trimmed ▸ ahead) (by omega),holds.trim ahead within⟩

theorem Holds.performAll (holds : Holds l m) (ops : List (Op T)) (permitted : l.PermitsAll ops) : ∃ m' : MemoryStorage T S,
    Carries m l.entries.length (ops.flatMap Op.storageOps) m' (ops.foldl Ledger.perform l).entries.length ∧
      Holds (ops.foldl Ledger.perform l) m' := by
  induction ops generalizing l m with
  | nil => exact ⟨m,⟨trivial,rfl,rfl⟩,holds⟩
  | cons op rest ih =>
    obtain ⟨middle,first,held⟩ := holds.perform op permitted.1
    obtain ⟨final,later,kept⟩ := ih held permitted.2
    exact ⟨final,first.append later,kept⟩

end Memory

section Runs
variable [Bincode T] [Bincode (Option S)] [Bincode Ballot] [Bincode (Option StopSign)]

-- A transaction of the memory is its methods, one after the other.
def step (w : World T S) : Act T → Option (World T S)
  | .direct op => some {
      ledger:=w.ledger.perform op
      memory:=(MemoryStorage.writeAtomically op.storageOps w.memory).2
      database:=(op.call w.database).2}
  | .atomically ops => some {
      ledger:=ops.foldl Ledger.perform w.ledger
      memory:=(MemoryStorage.writeAtomically (ops.flatMap Op.storageOps) w.memory).2
      database:=(PersistentStorage.writeAtomically (ops.flatMap Op.storageOps) w.database).2}

def Permitted (w : World T S) : Act T → Prop
  | .direct op => w.ledger.Permits op
  | .atomically ops => w.ledger.PermitsAll ops

section Database
variable [Bincode.Lossless T] {l : Ledger T} {s : PersistentStorage T S}

omit [Bincode (Option S)] [Bincode Ballot] [Bincode (Option StopSign)] in
-- Entries appended to a batch, or to the database once the batch is in it.
theorem append_flush (s : PersistentStorage T S) (entries : List T) (fits : s.nextLogKey+entries.length < 2^64) :
    ∃ next, batchAppendEntries entries s = (.ok (),next) ∧ PersistentStorage.appendEntries entries s.flush = (.ok (),next.flush) := by
  obtain ⟨next,ran,_,flushed⟩ := batchAppendEntries_ok s entries fits
  refine ⟨next,ran,?_⟩
  rw [flushed]
  exact appendEntries_ok s.flush entries fits

theorem appendOnPrefix_eq (idle : s.writeBatch = []) (entries : List T) (fits : fromIdx+entries.length < 2^64) :
    PersistentStorage.appendOnPrefix fromIdx entries s =
      PersistentStorage.writeAtomically [(.appendOnPrefix fromIdx entries : StorageOp T S)] s := by
  simp only [PersistentStorage.appendOnPrefix,PersistentStorage.writeAtomically,batch,batchAppendOnPrefix,checkedAdd,
    if_pos fits]
  split
  · let cut : BatchOp := .deleteRangeLog (toBeBytes (fromIdx+entries.length)) (toBeBytes s.nextLogKey)
    obtain ⟨next,ran,wrote⟩ := append_flush {s.push cut with nextLogKey:=fromIdx} entries fits
    have same : ({s.push cut with nextLogKey:=fromIdx} : PersistentStorage T S).flush =
        {s with db:=s.db.apply cut,nextLogKey:=fromIdx} := by
      change {(s.push cut).flush with nextLogKey:=fromIdx} = _
      rw [flush_push,flush_idle idle]
    rw [same] at wrote
    simp only [cut] at ran wrote
    rw [wrote,ran]
  · obtain ⟨next,ran,wrote⟩ := append_flush {s with nextLogKey:=fromIdx} entries fits
    have plain : ({s with nextLogKey:=fromIdx} : PersistentStorage T S).flush = {s with nextLogKey:=fromIdx} :=
      flush_idle idle
    rw [plain] at wrote
    rw [wrote,ran]

-- Between transactions a method does what a transaction of its own would do.
theorem call_eq (idle : s.writeBatch = []) (last : s.nextLogKey = l.entries.length) (op : Op T) (permitted : l.Permits op) :
    op.call s = PersistentStorage.writeAtomically op.storageOps s := by
  have flushed := flush_idle idle
  cases op with
  | appendEntry entry =>
    rw [Ledger.Permits,←last] at permitted
    obtain ⟨next,ran,wrote⟩ := append_flush s [entry] permitted
    rw [flushed] at wrote
    simp only [Op.call,Op.storageOps,PersistentStorage.writeAtomically,batch,batchAppendEntry,ran,←wrote]
    simp only [PersistentStorage.appendEntry,PersistentStorage.appendEntries,putEntries,serialize_code,checkedAdd,if_pos permitted]
    rfl
  | appendEntries entries =>
    rw [Ledger.Permits,←last] at permitted
    obtain ⟨next,ran,wrote⟩ := append_flush s entries permitted
    rw [flushed] at wrote
    simp only [Op.call,Op.storageOps,PersistentStorage.writeAtomically,batch,ran,wrote]
  | appendOnPrefix fromIdx entries => exact appendOnPrefix_eq idle entries permitted.2.2
  | trim idx =>
    change (Except.ok (),_) = (Except.ok (),((s.push _).push _).flush)
    rw [flush_push,flush_push,flushed]

end Database

structure Valid (w : World T S) : Prop where
  holds : Holds w.ledger w.memory
  synced : Synced w.memory w.database

theorem Valid.last {w : World T S} (valid : Valid w) : w.database.nextLogKey = w.ledger.entries.length :=
  valid.synced.last.trans valid.holds.ends

theorem valid_open {first : PersistentStorage T S} (opened : openStorage {} = .ok first) : Valid {database:=first} :=
  ⟨⟨rfl,rfl,rfl,Nat.zero_le _,Nat.two_pow_pos 64⟩,synced_open opened⟩

variable [Bincode.Lossless T] [Bincode.Lossless (Option S)] [Bincode.Lossless Ballot] [Bincode.Lossless (Option StopSign)]

theorem Valid.carry {w : World T S} {l : Ledger T} {m : MemoryStorage T S} (valid : Valid w)
    (carries : Carries w.memory w.ledger.entries.length txn m l.entries.length) (held : Holds l m) :
    Valid ⟨l,(MemoryStorage.writeAtomically txn w.memory).2,(PersistentStorage.writeAtomically txn w.database).2⟩ := by
  rw [←valid.last,←held.ends] at carries
  obtain ⟨next,wrote,synced⟩ := valid.synced.write carries (held.trimmed.trans held.compacted.symm)
  rw [carries.ran,wrote]
  exact ⟨held,synced⟩

theorem valid_step {w next : World T S} (valid : Valid w) (permitted : Permitted w action)
    (ran : step w action = some next) : Valid next := by
  cases action with
  | direct op =>
    obtain ⟨m,carries,held⟩ := valid.holds.perform op permitted
    cases ran
    rw [call_eq valid.synced.idle valid.last op permitted]
    exact valid.carry carries held
  | atomically ops =>
    obtain ⟨m,carries,held⟩ := valid.holds.performAll ops permitted
    cases ran
    exact valid.carry carries held

theorem valid_runs {first : PersistentStorage T S} {w : World T S} (opened : openStorage {} = .ok first)
    (path : Machine.Runs step Permitted {database:=first} actions w) : Valid w :=
  path.invariant Valid (fun _ _ _ valid permitted ran => valid_step valid permitted ran) (valid_open opened)

end Runs

section Reads

theorem memory_entries {l : Ledger T} {m : MemoryStorage T S} (holds : Holds l m) (start stop : Nat) :
    m.getEntries start stop = .ok (l.interval start stop) ↔ l.trimmed ≤ start ∧ l.trimmed ≤ stop := by
  have ends := holds.ends
  have trimmed := holds.trimmed
  constructor
  · intro read
    by_contra behind
    -- One of the two subtractions overflows.
    have panics : m.getEntries start stop = .error .panic := by
      rw [MemoryStorage.getEntries,trimmed,checkedSub,checkedSub]
      by_cases ahead : l.trimmed ≤ start
      · rw [if_pos ahead,if_neg fun later => behind ⟨ahead,later⟩]
        rfl
      · rw [if_neg ahead]
        rfl
    cases panics.symm.trans read
  · rintro ⟨ahead,later⟩
    rw [m.getEntries_ok (trimmed ▸ ahead) (trimmed ▸ later)]
    congr 1
    split
    · rename_i within
      have count : stop-l.trimmed-(start-l.trimmed) = stop-start := by omega
      rw [l.interval_stored ahead (by omega),holds.log,trimmed,List.drop_take,List.drop_drop,Nat.add_sub_cancel' ahead,count]
    · rename_i outside
      rcases Nat.lt_or_ge start stop with proper | inverted
      · exact (l.interval_past (by omega)).symm
      · exact (l.interval_empty inverted).symm

theorem memory_suffix {l : Ledger T} {m : MemoryStorage T S} (holds : Holds l m) (start : Nat) :
    m.getSuffix start = .ok (l.suffix start) ↔ l.trimmed ≤ start := by
  have trimmed := holds.trimmed
  constructor
  · intro read
    by_contra behind
    have panics : m.getSuffix start = .error .panic := by
      rw [MemoryStorage.getSuffix,trimmed,checkedSub,if_neg behind]
      rfl
    cases panics.symm.trans read
  · intro ahead
    rw [m.getSuffix_ok (trimmed ▸ ahead),Ledger.suffix,l.interval_stored ahead (Nat.le_refl _),holds.log,trimmed,
      List.drop_drop,Nat.add_sub_cancel' ahead,List.take_of_length_le (by rw [List.length_drop])]

section Database
variable [Bincode T]

theorem collect_short [Bincode.Lossless T] (entries : List T) (start : Nat) (short : entries.length < count) :
    collect count (OrderedMap.cells toBeBytes start (entries.map code)) = (.error .backend : StorageResult (List T)) := by
  induction entries generalizing start count with
  | nil =>
    cases count with
    | zero => cases short
    | succ => rfl
  | cons entry rest ih =>
    cases count with
    | zero => cases short
    | succ count =>
      simp only [List.map_cons,OrderedMap.cells,collect,deserialize_code,ih (start+1) (Nat.lt_of_succ_lt_succ short)]
      rfl

variable [Bincode (Option S)] [Bincode Ballot] [Bincode (Option StopSign)] [Bincode.Lossless T]

-- The iterator starts at the first entry there is, so the values are those of
-- other indices, as far as there are any.
theorem getEntries_behind {w : World T S} (valid : Valid w) (behind : start < w.ledger.trimmed) (proper : start < stop)
    (within : stop ≤ w.ledger.entries.length) : w.database.getEntries start stop =
      if stop-start ≤ w.memory.log.length then .ok (w.memory.log.take (stop-start)) else .error .backend := by
  have last := valid.last
  have fits := valid.synced.mirrors.fits
  have trimmed := valid.holds.trimmed
  rw [PersistentStorage.getEntries,if_neg (by omega),valid.synced.mirrors.log.seek_behind toBeBytes_ascending (by omega)
    (by rw [List.length_map]; omega)]
  split
  · rename_i enough
    exact collect_cells _ _ enough
  · rename_i short
    exact collect_short _ _ (by omega)

theorem database_entries {w : World T S} (valid : Valid w) (start stop : Nat) :
    w.database.getEntries start stop = .ok (w.ledger.interval start stop) ↔
      w.ledger.trimmed ≤ start ∨ stop ≤ start ∨ w.ledger.entries.length < stop := by
  have last := valid.last
  constructor
  · intro read
    by_contra stray
    have behind : start < w.ledger.trimmed := by omega
    rw [getEntries_behind valid behind (by omega) (by omega),w.ledger.interval_trimmed behind] at read
    split at read
    · rename_i enough
      have none : (w.memory.log.take (stop-start)).length = 0 := congrArg List.length (Except.ok.inj read)
      rw [List.length_take] at none
      omega
    · cases read
  · intro met
    have early : w.database.nextLogKey < stop ∨ stop ≤ start →
        w.database.getEntries start stop = .ok (w.ledger.interval start stop) := by
      intro empty
      rw [PersistentStorage.getEntries,if_pos empty]
      rcases empty with past | inverted
      · rw [w.ledger.interval_past (last ▸ past)]
      · rw [w.ledger.interval_empty inverted]
    rcases met with ahead | inverted | past
    · rcases Nat.lt_or_ge start stop with proper | inverted
      · have later : w.ledger.trimmed ≤ stop := by omega
        have same := valid.holds.trimmed
        rw [valid.synced.getEntries_eq (same ▸ ahead) (same ▸ later)]
        exact (memory_entries valid.holds start stop).mpr ⟨ahead,later⟩
      · exact early (.inr inverted)
    · exact early (.inr inverted)
    · exact early (.inl (last ▸ past))

theorem database_suffix {w : World T S} (valid : Valid w) (start : Nat) :
    w.database.getSuffix start = .ok (w.ledger.suffix start) ↔ w.ledger.trimmed ≤ start := by
  have within := valid.holds.within
  rw [PersistentStorage.getSuffix,valid.last,Ledger.suffix,database_entries valid]
  omega

end Database
end Reads

section Contract
variable [Bincode T] [Bincode (Option S)] [Bincode Ballot] [Bincode (Option StopSign)]
variable [Bincode.Lossless T] [Bincode.Lossless (Option S)] [Bincode.Lossless Ballot] [Bincode.Lossless (Option StopSign)]

-- Whatever has been written, each read keeps to its contract exactly if it stays
-- out of the trimmed part: the memory's subtractions overflow there, and the
-- database's iterator hands out later entries, or runs out of them.
theorem interval_reads_iff (first : PersistentStorage T S) (actions : List (Act T)) (w : World T S)
    (opened : openStorage {} = .ok first) (path : Machine.Runs step Permitted {database:=first} actions w)
    (start stop : Nat) :
    (w.memory.getEntries start stop = .ok (w.ledger.interval start stop) ↔
      w.ledger.trimmed ≤ start ∧ w.ledger.trimmed ≤ stop) ∧
    (w.memory.getSuffix start = .ok (w.ledger.suffix start) ↔ w.ledger.trimmed ≤ start) ∧
    (w.database.getEntries start stop = .ok (w.ledger.interval start stop) ↔
      w.ledger.trimmed ≤ start ∨ stop ≤ start ∨ w.ledger.entries.length < stop) ∧
    (w.database.getSuffix start = .ok (w.ledger.suffix start) ↔ w.ledger.trimmed ≤ start) := by
  have valid := valid_runs opened path
  exact ⟨memory_entries valid.holds start stop,memory_suffix valid.holds start,database_entries valid start stop,
    database_suffix valid start⟩

end Contract

section Sample

instance (l : Ledger T) (op : Op T) : Decidable (l.Permits op) :=
  match op with
  | .appendEntry _ => inferInstanceAs (Decidable (_ < _))
  | .appendEntries _ => inferInstanceAs (Decidable (_ < _))
  | .appendOnPrefix _ _ => inferInstanceAs (Decidable (_ ∧ _ ∧ _))
  | .trim _ => inferInstanceAs (Decidable (_ ∧ _))

instance decidablePermitsAll (l : Ledger T) : (ops : List (Op T)) → Decidable (l.PermitsAll ops)
  | [] => .isTrue trivial
  | op::rest =>
    have := decidablePermitsAll (l.perform op) rest
    inferInstanceAs (Decidable (_ ∧ _))

instance (w : World T S) (action : Act T) : Decidable (Permitted w action) :=
  match action with
  | .direct _ => inferInstanceAs (Decidable (Ledger.Permits _ _))
  | .atomically _ => inferInstanceAs (Decidable (Ledger.PermitsAll _ _))

-- Two of five entries have gone, and the last one has been written anew.
def sampleActs : List (Act UInt8) :=
  [.direct (.appendEntries [10,11,12]),.direct (.appendEntry 13),.atomically [.trim 1,.appendEntries [14]],
    .direct (.trim 2),.direct (.appendOnPrefix 4 [24])]

theorem interval_reads_sample : ∃ w : World UInt8 (List UInt8),
    Machine.Runs step Permitted {database:=⟨{},[],0⟩} sampleActs w ∧ w.ledger.interval 2 4 = [12,13] ∧
    w.memory.getEntries 2 4 = .ok [12,13] ∧ w.database.getEntries 2 4 = .ok [12,13] ∧
    w.database.getEntries 1 4 ≠ .ok (w.ledger.interval 1 4) := by
  obtain ⟨w,path,read,trimmed,length⟩ := Machine.run_reaches step Permitted
    (fun w : World UInt8 (List UInt8) => w.ledger.interval 2 4 = [12,13] ∧ w.ledger.trimmed = 2 ∧ w.ledger.entries.length = 5)
    {database:=⟨{},[],0⟩} sampleActs (by decide +kernel)
  obtain ⟨memory,_,database,_⟩ := interval_reads_iff ⟨{},[],0⟩ sampleActs w rfl path 2 4
  obtain ⟨_,_,behind,_⟩ := interval_reads_iff ⟨{},[],0⟩ sampleActs w rfl path 1 4
  rw [read,trimmed] at memory database
  rw [trimmed,length] at behind
  refine ⟨w,path,read,memory.mpr (by decide),database.mpr (.inl (by decide)),?_⟩
  intro answered
  exact absurd (behind.mp answered) (by decide)

-- The first of three entries is trimmed; the database then returns the second in
-- its place.
theorem trimmed_interval_misread : ¬ ∀ (actions : List (Act UInt8)) (w : World UInt8 (List UInt8)),
    Machine.Runs step Permitted {database:=⟨{},[],0⟩} actions w → ∀ start stop,
      w.memory.getEntries start stop = .ok (w.ledger.interval start stop) ∧
      w.memory.getSuffix start = .ok (w.ledger.suffix start) ∧
      w.database.getEntries start stop = .ok (w.ledger.interval start stop) ∧
      w.database.getSuffix start = .ok (w.ledger.suffix start) := by
  intro claimed
  obtain ⟨w,path,none,misread⟩ := Machine.run_reaches step Permitted
    (fun w : World UInt8 (List UInt8) => w.ledger.interval 0 1 = [] ∧ w.database.getEntries 0 1 = .ok [11])
    {database:=⟨{},[],0⟩} [.direct (.appendEntries [10,11,12]),.direct (.trim 1)] (by decide +kernel)
  have read := (claimed _ w path 0 1).2.2.1
  rw [none,misread] at read
  cases read

end Sample
end OmniPaxosKV.Intervals

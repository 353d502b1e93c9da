import OmniPaxosKV.Compaction

namespace OmniPaxosKV

-- One end of a range of machine indices.
inductive Bound where
  | included (idx : UInt64)
  | excluded (idx : UInt64)
  | unbounded
  deriving DecidableEq, Repr

def checkedAdd (a b : Nat) : StorageResult Nat := if a+b < 2^64 then .ok (a+b) else .error .panic

namespace Bound

-- The half-open range a pair of bounds stands for, as plain numbers.
def first : Bound → Nat
  | .included idx => idx.toNat
  | .excluded idx => idx.toNat+1
  | .unbounded => 0

def last (acceptedIdx : Nat) : Bound → Nat
  | .included idx => idx.toNat+1
  | .excluded idx => idx.toNat
  | .unbounded => acceptedIdx

-- The same range as the machine computes it.
def fromIdx : Bound → StorageResult Nat
  | .included idx => .ok idx.toNat
  | .excluded idx => checkedAdd idx.toNat 1
  | .unbounded => .ok 0

def toIdx (acceptedIdx : Nat) : Bound → StorageResult Nat
  | .included idx => checkedAdd idx.toNat 1
  | .excluded idx => .ok idx.toNat
  | .unbounded => .ok acceptedIdx

theorem fromIdx_eq (bound : Bound) : bound.fromIdx = if bound.first < 2^64 then .ok bound.first else .error .panic := by
  cases bound with
  | included idx => exact (if_pos idx.toNat_lt).symm
  | excluded idx => rfl
  | unbounded => rfl

theorem toIdx_eq (bound : Bound) (fits : acceptedIdx < 2^64) :
    bound.toIdx acceptedIdx = if bound.last acceptedIdx < 2^64 then .ok (bound.last acceptedIdx) else .error .panic := by
  cases bound with
  | included idx => rfl
  | excluded idx => exact (if_pos idx.toNat_lt).symm
  | unbounded => exact (if_pos fits).symm

end Bound

namespace InternalStorage
variable {B T S : Type} [Storage B T S]

-- `getEntryType` with the machine's addition.
def entryType (s : InternalStorage B T) (idx : Nat) : StorageResult (Option IndexEntry) :=
  if idx < s.stateCache.compactedIdx then .ok (some .compacted)
  else match checkedAdd idx 1 with
    | .error fault => .error fault
    | .ok next =>
      if next < s.stateCache.acceptedIdx then .ok (some .entry)
      else if next = s.stateCache.acceptedIdx then
        match s.stateCache.stopsign with
        | some ss => .ok (some (.stopSign ss))
        | none => .ok (some .entry)
      else .ok none

def readTyped (s : InternalStorage B T) (fromIdx toIdx : Nat) :
    IndexEntry → IndexEntry → StorageResult (Option (List (LogEntry T)))
  | .entry,.entry => do return some (← s.createReadLogEntries fromIdx toIdx)
  | .entry,.stopSign ss => do
    let entries ← s.createReadLogEntries fromIdx (toIdx-1)
    return some (entries++[.stopSign ss s.stateCache.stopsignIsDecided])
  | .stopSign ss,.stopSign _ => .ok (some [.stopSign ss s.stateCache.stopsignIsDecided])
  | _,_ => .error .panic

-- The type at the last index is asked for first, then the one at the first index.
def readBetween (s : InternalStorage B T) (fromIdx toIdx : Nat) : StorageResult (Option (List (LogEntry T))) :=
  if toIdx = 0 then .ok none
  else match s.entryType (toIdx-1) with
    | .error fault => .error fault
    | .ok none => .ok none
    | .ok (some toType) => match s.entryType fromIdx with
      | .error fault => .error fault
      | .ok none => .ok none
      | .ok (some fromType) => s.readTyped fromIdx toIdx fromType toType

-- The read of any kind of range.
def readRange (s : InternalStorage B T) (start stop : Bound) : StorageResult (Option (List (LogEntry T))) := do
  let fromIdx ← start.fromIdx
  let toIdx ← stop.toIdx s.stateCache.acceptedIdx
  s.readBetween fromIdx toIdx

theorem entryType_eq (s : InternalStorage B T) (fits : idx+1 < 2^64) : s.entryType idx = .ok (s.getEntryType idx) := by
  unfold entryType getEntryType checkedAdd
  rw [if_pos fits]
  split
  · rfl
  · simp only
    split
    · rfl
    · split
      · split <;> simp_all
      · rfl

-- On indices that can be counted on, this is the read of half-open ranges.
theorem readBetween_eq (s : InternalStorage B T) (fits : fromIdx+1 < 2^64) (short : toIdx < 2^64) :
    s.readBetween fromIdx toIdx = s.read fromIdx toIdx := by
  unfold readBetween read
  by_cases empty : toIdx = 0
  · simp only [empty,if_true]
  · simp only [empty,if_false]
    have counted : toIdx-1+1 < 2^64 := by omega
    rw [s.entryType_eq counted,s.entryType_eq fits]
    rcases s.getEntryType (toIdx-1) with _ | _ | _ | ss <;> rcases s.getEntryType fromIdx with _ | _ | _ | ss' <;> rfl

theorem readRange_eq (s : InternalStorage B T) (start stop : Bound) (fits : s.stateCache.acceptedIdx < 2^64) :
    s.readRange start stop =
      if start.first < 2^64 ∧ stop.last s.stateCache.acceptedIdx < 2^64 then
        s.readBetween start.first (stop.last s.stateCache.acceptedIdx)
      else .error .panic := by
  unfold readRange
  rw [start.fromIdx_eq,stop.toIdx_eq fits]
  by_cases early : start.first < 2^64 <;> by_cases late : stop.last s.stateCache.acceptedIdx < 2^64
  all_goals simp only [early,late,if_true,if_false,and_self,and_false,false_and]; rfl

section Memory
variable {s : OverMemory T S}

theorem entryType_compacted (below : idx < s.stateCache.compactedIdx) : s.entryType idx = .ok (some .compacted) :=
  if_pos below

theorem entryType_overflow (above : s.stateCache.compactedIdx ≤ idx) (huge : ¬ idx+1 < 2^64) :
    s.entryType idx = .error .panic := by
  rw [entryType,if_neg (by omega),checkedAdd,if_neg huge]

theorem entryType_past (bound : s.stateCache.compactedIdx ≤ s.stateCache.acceptedIdx)
    (past : s.stateCache.acceptedIdx ≤ idx) (fits : idx+1 < 2^64) : s.entryType idx = .ok none := by
  rw [entryType,if_neg (by omega),checkedAdd,if_pos fits]
  simp only
  rw [if_neg (by omega),if_neg (by omega)]

theorem Coherent.entryType_entry (valid : Coherent s) (fits : s.stateCache.acceptedIdx < 2^64)
    (above : s.stateCache.compactedIdx ≤ idx) (stored : idx < s.storage.logEnd) : s.entryType idx = .ok (some .entry) := by
  have counted := valid.accepted
  rw [←valid.stopsign] at counted
  unfold MemoryStorage.logEnd at stored
  rw [entryType,if_neg (by omega),checkedAdd,if_pos (by omega)]
  simp only
  cases sign : s.stateCache.stopsign with
  | none => split <;> first | rfl | rw [if_pos (by simp [sign,slots] at counted; omega)]
  | some ss =>
    simp only [sign,slots,Option.isSome_some,if_true] at counted
    rw [if_pos (by omega)]

theorem Coherent.entryType_stopSign (valid : Coherent s) (fits : s.stateCache.acceptedIdx < 2^64)
    (sign : s.stateCache.stopsign = some ss) : s.entryType s.storage.logEnd = .ok (some (.stopSign ss)) := by
  have counted := valid.accepted
  have compacted := valid.compacted
  rw [←valid.stopsign,sign] at counted
  simp only [slots,Option.isSome_some,if_true] at counted
  rw [entryType,if_neg (by unfold MemoryStorage.logEnd; omega),checkedAdd,if_pos (by unfold MemoryStorage.logEnd; omega)]
  simp only [sign]
  rw [if_neg (by unfold MemoryStorage.logEnd; omega),if_pos (by unfold MemoryStorage.logEnd; omega)]

-- What a read should show at an index at or after the compacted part.
def slotAt (s : OverMemory T S) (idx : Nat) : Option (LogEntry T) :=
  match s.entryAt idx with
  | some entry => some (if idx < s.stateCache.decidedIdx then .decided entry else .undecided entry)
  | none => if idx+1 = s.stateCache.acceptedIdx
      then s.stateCache.stopsign.map fun ss => .stopSign ss s.stateCache.stopsignIsDecided
      else none

-- What a read of a whole range should return: nothing when the range is empty at
-- the start or reaches past the log, else its compacted part as one trimmed
-- entry and then slot after slot.
def expectedRead (s : OverMemory T S) (fromIdx toIdx : Nat) : Option (List (LogEntry T)) :=
  if toIdx = 0 ∨ s.stateCache.acceptedIdx < toIdx ∨ s.stateCache.acceptedIdx < fromIdx then none
  else
    let compacted := if fromIdx < toIdx ∧ fromIdx < s.stateCache.compactedIdx
      then [.trimmed s.stateCache.compactedIdx] else []
    let first := max fromIdx s.stateCache.compactedIdx
    some (compacted++(List.range' first (toIdx-first)).filterMap s.slotAt)

theorem Coherent.slotAt_entry (valid : Coherent s) (above : s.stateCache.compactedIdx ≤ idx)
    (found : s.storage.log[idx-s.stateCache.compactedIdx]? = some entry) :
    s.slotAt idx = some (if idx < s.stateCache.decidedIdx then .decided entry else .undecided entry) := by
  have compacted := valid.compacted
  rw [compacted] at found
  rw [slotAt,entryAt,if_neg (by omega),found]

theorem Coherent.slotAt_stopSign (valid : Coherent s) (sign : s.stateCache.stopsign = some ss) :
    s.slotAt s.storage.logEnd = some (.stopSign ss s.stateCache.stopsignIsDecided) := by
  have counted := valid.accepted
  rw [←valid.stopsign,sign] at counted
  simp only [slots,Option.isSome_some,if_true] at counted
  have absent : s.entryAt s.storage.logEnd = none := by
    rw [entryAt,MemoryStorage.logEnd,if_neg (by omega),Nat.add_sub_cancel,List.getElem?_length]
  rw [slotAt,absent]
  simp only [sign,Option.map_some]
  rw [if_pos (by unfold MemoryStorage.logEnd; omega)]

-- Entries read one after the other, tagged by the index they have in the log.
theorem Coherent.tagged_entries (valid : Coherent s) (count : Nat) (above : s.stateCache.compactedIdx ≤ fromIdx)
    (stored : fromIdx+count ≤ s.storage.logEnd) (position : offset+base = fromIdx) :
    (((s.storage.log.drop (fromIdx-s.stateCache.compactedIdx)).take count).zipIdx offset).map
      (fun (entry,idx) => if idx+base < s.stateCache.decidedIdx then LogEntry.decided entry else .undecided entry) =
    (List.range' fromIdx count).filterMap s.slotAt := by
  have compacted := valid.compacted
  induction count generalizing fromIdx offset with
  | zero => rfl
  | succ count ih =>
    unfold MemoryStorage.logEnd at stored
    have inside : fromIdx-s.stateCache.compactedIdx < s.storage.log.length := by omega
    have later : (fromIdx-s.stateCache.compactedIdx)+1 = fromIdx+1-s.stateCache.compactedIdx := by omega
    have rest := @ih (fromIdx+1) (offset+1) (by omega) (by unfold MemoryStorage.logEnd; omega) (by omega)
    have head := valid.slotAt_entry above (List.getElem?_eq_getElem inside)
    rw [List.drop_eq_getElem_cons inside,List.take_succ_cons,List.zipIdx_cons,List.map_cons,later,rest,
      List.range'_succ,List.filterMap_cons,head]
    simp only [position]

theorem Coherent.createRead (valid : Coherent s) (above : s.stateCache.compactedIdx ≤ fromIdx)
    (ordered : fromIdx ≤ toIdx) (stored : toIdx ≤ s.storage.logEnd) :
    s.createReadLogEntries fromIdx toIdx = .ok ((List.range' fromIdx (toIdx-fromIdx)).filterMap s.slotAt) := by
  have compacted := valid.compacted
  have trimmed := valid.trimmed
  have stored' := stored
  unfold MemoryStorage.logEnd at stored'
  have read : s.storage.getEntries fromIdx toIdx = _ := s.storage.getEntries_ok (by omega) (by omega)
  rw [if_pos (by omega),trimmed,←compacted,List.drop_take] at read
  have width : toIdx-s.stateCache.compactedIdx-(fromIdx-s.stateCache.compactedIdx) = toIdx-fromIdx := by omega
  rw [width] at read
  simp only [createReadLogEntries,Storage.getEntries,read,bind,Except.bind,pure,Except.pure]
  rw [valid.tagged_entries (toIdx-fromIdx) above (by omega) (Nat.zero_add _)]

-- An inverted range holds no index.
theorem Coherent.createRead_inverted (valid : Coherent s) (above : s.stateCache.compactedIdx ≤ fromIdx)
    (later : s.stateCache.compactedIdx ≤ toIdx) (inverted : toIdx < fromIdx) :
    s.createReadLogEntries fromIdx toIdx = .ok [] := by
  have compacted := valid.compacted
  have trimmed := valid.trimmed
  have read : s.storage.getEntries fromIdx toIdx = _ := s.storage.getEntries_ok (by omega) (by omega)
  rw [if_neg (by omega)] at read
  simp only [createReadLogEntries,Storage.getEntries,read,bind,Except.bind,pure,Except.pure]
  rfl

-- The ranges a read answers as it should: no bound overflows, and the range is
-- one that shows nothing, or one that begins and ends in what is still stored
-- and does not run back from the stop-sign.
def Readable (s : OverMemory T S) (fromIdx toIdx : Nat) : Prop :=
  fromIdx < 2^64 ∧ toIdx < 2^64 ∧
    (toIdx = 0 ∨ s.stateCache.acceptedIdx < toIdx ∨ (s.stateCache.acceptedIdx < fromIdx ∧ fromIdx+1 < 2^64) ∨
      (s.stateCache.compactedIdx ≤ fromIdx ∧ fromIdx < s.stateCache.acceptedIdx ∧ s.stateCache.compactedIdx < toIdx ∧
        ¬(s.stateCache.stopsign.isSome ∧ fromIdx+1 = s.stateCache.acceptedIdx ∧ toIdx < s.stateCache.acceptedIdx)))

instance (s : OverMemory T S) (fromIdx toIdx : Nat) : Decidable (s.Readable fromIdx toIdx) :=
  inferInstanceAs (Decidable (_ ∧ _))

-- Every index before the accepted one has a type.
theorem Coherent.entryType_inside (valid : Coherent s) (fits : s.stateCache.acceptedIdx < 2^64)
    (inside : idx < s.stateCache.acceptedIdx) :
    (idx < s.stateCache.compactedIdx ∧ s.entryType idx = .ok (some .compacted)) ∨
    (s.stateCache.compactedIdx ≤ idx ∧ idx < s.storage.logEnd ∧ s.entryType idx = .ok (some .entry)) ∨
    (∃ ss, s.stateCache.stopsign = some ss ∧ idx = s.storage.logEnd ∧ s.stateCache.acceptedIdx = s.storage.logEnd+1 ∧
      s.entryType idx = .ok (some (.stopSign ss))) := by
  rcases Nat.lt_or_ge idx s.stateCache.compactedIdx with below | above
  · exact .inl ⟨below,entryType_compacted below⟩
  · rcases Nat.lt_or_ge idx s.storage.logEnd with stored | past
    · exact .inr (.inl ⟨above,stored,valid.entryType_entry fits above stored⟩)
    · have counted : s.stateCache.acceptedIdx = s.storage.logEnd+slots s.stateCache.stopsign := by
        rw [valid.accepted,valid.stopsign]
        rfl
      cases sign : s.stateCache.stopsign with
      | none =>
        simp only [sign,slots,Option.isSome_none,Bool.false_eq_true,if_false] at counted
        omega
      | some ss =>
        simp only [sign,slots,Option.isSome_some,if_true] at counted
        have last : idx = s.storage.logEnd := by omega
        subst last
        exact .inr (.inr ⟨ss,rfl,rfl,counted,valid.entryType_stopSign fits sign⟩)

theorem readBetween_typed (nonempty : toIdx ≠ 0) (later : s.entryType (toIdx-1) = .ok (some toType))
    (early : s.entryType fromIdx = .ok (some fromType)) :
    s.readBetween fromIdx toIdx = s.readTyped fromIdx toIdx fromType toType := by
  rw [readBetween,if_neg nonempty,later]
  simp only [early]

theorem expectedRead_stored (above : s.stateCache.compactedIdx ≤ fromIdx) (nonempty : toIdx ≠ 0)
    (within : toIdx ≤ s.stateCache.acceptedIdx) (before : fromIdx ≤ s.stateCache.acceptedIdx) :
    s.expectedRead fromIdx toIdx = some ((List.range' fromIdx (toIdx-fromIdx)).filterMap s.slotAt) := by
  rw [expectedRead,if_neg (by omega),if_neg (by omega),Nat.max_eq_left above]
  rfl

theorem Coherent.read_stored (valid : Coherent s) (fits : s.stateCache.acceptedIdx < 2^64)
    (above : s.stateCache.compactedIdx ≤ fromIdx) (before : fromIdx < s.stateCache.acceptedIdx)
    (later : s.stateCache.compactedIdx < toIdx) (within : toIdx ≤ s.stateCache.acceptedIdx)
    (forward : ¬(s.stateCache.stopsign.isSome ∧ fromIdx+1 = s.stateCache.acceptedIdx ∧ toIdx < s.stateCache.acceptedIdx)) :
    s.readBetween fromIdx toIdx = .ok (s.expectedRead fromIdx toIdx) := by
  have nonempty : toIdx ≠ 0 := by omega
  rw [expectedRead_stored above nonempty within (Nat.le_of_lt before)]
  obtain ⟨below,_⟩ | ⟨_,stored,early⟩ | ⟨ss,sign,last,counted,early⟩ := valid.entryType_inside fits before
  · omega
  · obtain ⟨below,_⟩ | ⟨_,kept,late⟩ | ⟨ss,sign,last,counted,late⟩ :=
      valid.entryType_inside fits (show toIdx-1 < s.stateCache.acceptedIdx by omega)
    · omega
    · rw [readBetween_typed nonempty late early,readTyped]
      rcases Nat.lt_or_ge toIdx fromIdx with inverted | ordered
      · rw [valid.createRead_inverted above (Nat.le_of_lt later) inverted,Nat.sub_eq_zero_of_le (Nat.le_of_lt inverted)]
        rfl
      · rw [valid.createRead above ordered (by omega)]
        rfl
    -- The range ends with the stop-sign: the entries before it, then its own slot.
    · rw [readBetween_typed nonempty late early,readTyped,valid.createRead above (by omega) (by omega)]
      have width : toIdx-fromIdx = toIdx-1-fromIdx+1 := by omega
      have slot : fromIdx+(toIdx-1-fromIdx) = s.storage.logEnd := by omega
      rw [width,List.range'_concat,List.filterMap_append,Nat.one_mul,slot]
      simp only [List.filterMap_cons,valid.slotAt_stopSign sign]
      rfl
  · have whole : toIdx = s.storage.logEnd+1 := by
      simp only [sign,Option.isSome_some,true_and] at forward
      omega
    subst last
    have late : s.entryType (toIdx-1) = .ok (some (.stopSign ss)) := by
      rw [whole]
      exact early
    rw [readBetween_typed nonempty late early,readTyped,whole,Nat.add_sub_cancel_left]
    simp only [List.range'_one,List.filterMap_cons,valid.slotAt_stopSign sign]
    rfl

-- A range with an end in the compacted part, or one that runs back from the
-- stop-sign, is a combination that the source leaves out.
theorem Coherent.read_left_out (valid : Coherent s) (fits : s.stateCache.acceptedIdx < 2^64)
    (nonempty : toIdx ≠ 0) (within : toIdx ≤ s.stateCache.acceptedIdx) (before : fromIdx < s.stateCache.acceptedIdx)
    (out : fromIdx < s.stateCache.compactedIdx ∨ toIdx ≤ s.stateCache.compactedIdx ∨
      (s.stateCache.stopsign.isSome ∧ fromIdx+1 = s.stateCache.acceptedIdx ∧ toIdx < s.stateCache.acceptedIdx)) :
    s.readBetween fromIdx toIdx = .error .panic := by
  have ends : s.stateCache.stopsign.isSome → s.stateCache.acceptedIdx = s.storage.logEnd+1 := by
    intro present
    rw [valid.accepted,←valid.stopsign,slots,if_pos present]
    rfl
  obtain ⟨below',late⟩ | ⟨above',stored',late⟩ | ⟨ss',sign',last',counted',late⟩ :=
    valid.entryType_inside fits (show toIdx-1 < s.stateCache.acceptedIdx by omega)
  · obtain ⟨_,early⟩ | ⟨_,_,early⟩ | ⟨_,_,_,_,early⟩ := valid.entryType_inside fits before
    all_goals
      rw [readBetween_typed nonempty late early]
      rfl
  · obtain ⟨_,early⟩ | ⟨above,stored,early⟩ | ⟨_,_,_,_,early⟩ := valid.entryType_inside fits before
    · rw [readBetween_typed nonempty late early]
      rfl
    · rcases out with below | low | ⟨present,last,_⟩
      · omega
      · omega
      · have := ends present
        omega
    · rw [readBetween_typed nonempty late early]
      rfl
  -- A range that ends with the stop-sign is left out only if it starts too low.
  · have compacted := valid.compacted
    have low : fromIdx < s.stateCache.compactedIdx := by
      rcases out with below | low | ⟨_,_,short⟩
      · exact below
      · have : s.storage.compactedIdx ≤ s.storage.logEnd := Nat.le_add_left _ _
        omega
      · omega
    rw [readBetween_typed nonempty late (entryType_compacted low)]
    rfl

-- Past its end the log has no types: a range that starts there shows nothing, or
-- fails to count on from its first index.
theorem Coherent.read_past (valid : Coherent s) (fits : s.stateCache.acceptedIdx < 2^64)
    (bound : s.stateCache.compactedIdx ≤ s.stateCache.acceptedIdx) (nonempty : toIdx ≠ 0)
    (within : toIdx ≤ s.stateCache.acceptedIdx) (past : s.stateCache.acceptedIdx ≤ fromIdx) :
    s.readBetween fromIdx toIdx = if fromIdx+1 < 2^64 then .ok none else .error .panic := by
  have typed : ∃ toType, s.entryType (toIdx-1) = .ok (some toType) := by
    obtain ⟨_,late⟩ | ⟨_,_,late⟩ | ⟨_,_,_,_,late⟩ :=
      valid.entryType_inside fits (show toIdx-1 < s.stateCache.acceptedIdx by omega)
    all_goals exact ⟨_,late⟩
  obtain ⟨toType,late⟩ := typed
  rw [readBetween,if_neg nonempty,late]
  by_cases counts : fromIdx+1 < 2^64
  · rw [if_pos counts]
    simp only [entryType_past bound past counts]
  · rw [if_neg counts]
    simp only [entryType_overflow (Nat.le_trans bound past) counts]

theorem read_beyond (bound : s.stateCache.compactedIdx ≤ s.stateCache.acceptedIdx) (short : toIdx < 2^64)
    (beyond : s.stateCache.acceptedIdx < toIdx) : s.readBetween fromIdx toIdx = .ok none := by
  have past := entryType_past bound (show s.stateCache.acceptedIdx ≤ toIdx-1 by omega) (by omega)
  rw [readBetween,if_neg (by omega),past]

-- A read of any range answers as it should exactly on the readable ones.
theorem read_range_iff (s : OverMemory T S) (valid : Coherent s)
    (compacted : s.stateCache.compactedIdx ≤ s.stateCache.decidedIdx)
    (decided : s.stateCache.decidedIdx ≤ s.stateCache.acceptedIdx)
    (fits : s.stateCache.acceptedIdx < 2^64) (start stop : Bound) :
    s.readRange start stop = .ok (s.expectedRead start.first (stop.last s.stateCache.acceptedIdx)) ↔
      s.Readable start.first (stop.last s.stateCache.acceptedIdx) := by
  have bound := Nat.le_trans compacted decided
  rw [readRange_eq s start stop fits]
  generalize start.first = fromIdx
  generalize stop.last s.stateCache.acceptedIdx = toIdx
  by_cases machine : fromIdx < 2^64 ∧ toIdx < 2^64
  · rw [if_pos machine]
    rcases Nat.eq_zero_or_pos toIdx with rfl | positive
    · exact iff_of_true (by rw [readBetween,if_pos rfl,expectedRead,if_pos (.inl rfl)]) ⟨machine.1,machine.2,.inl rfl⟩
    rcases Nat.lt_or_ge s.stateCache.acceptedIdx toIdx with beyond | within
    · refine iff_of_true ?_ ⟨machine.1,machine.2,.inr (.inl beyond)⟩
      rw [read_beyond bound machine.2 beyond,expectedRead,if_pos (.inr (.inl beyond))]
    rcases Nat.lt_or_ge fromIdx s.stateCache.acceptedIdx with before | past
    · by_cases out : fromIdx < s.stateCache.compactedIdx ∨ toIdx ≤ s.stateCache.compactedIdx ∨
          (s.stateCache.stopsign.isSome ∧ fromIdx+1 = s.stateCache.acceptedIdx ∧ toIdx < s.stateCache.acceptedIdx)
      · rw [valid.read_left_out fits (Nat.ne_of_gt positive) within before out]
        refine iff_of_false (by simp) ?_
        rintro ⟨_,_,zero | beyond | ⟨far,_⟩ | ⟨above,_,later,forward⟩⟩
        · omega
        · omega
        · omega
        · rcases out with below | low | back
          · omega
          · omega
          · exact forward back
      · obtain ⟨above,rest⟩ := not_or.mp out
        obtain ⟨later,forward⟩ := not_or.mp rest
        have above := Nat.le_of_not_lt above
        have later := Nat.lt_of_not_le later
        exact iff_of_true (valid.read_stored fits above before later within forward)
          ⟨machine.1,machine.2,.inr (.inr (.inr ⟨above,before,later,forward⟩))⟩
    · rw [valid.read_past fits bound (Nat.ne_of_gt positive) within past]
      rcases Nat.eq_or_lt_of_le past with rfl | far
      -- Starting exactly at the end shows no slot, which is not the same as no answer.
      · rw [expectedRead_stored bound (Nat.ne_of_gt positive) within (Nat.le_refl _)]
        refine iff_of_false (by split <;> simp) ?_
        rintro ⟨_,_,zero | beyond | ⟨far,_⟩ | ⟨_,before,_⟩⟩ <;> omega
      · by_cases counts : fromIdx+1 < 2^64
        · rw [if_pos counts,expectedRead,if_pos (.inr (.inr far))]
          exact iff_of_true rfl ⟨machine.1,machine.2,.inr (.inr (.inl ⟨far,counts⟩))⟩
        · rw [if_neg counts]
          refine iff_of_false (by simp) ?_
          rintro ⟨_,_,zero | beyond | ⟨_,counts'⟩ | ⟨_,before,_⟩⟩ <;> omega
  · rw [if_neg machine]
    exact iff_of_false (by simp) (fun readable => machine ⟨readable.1,readable.2.1⟩)

end Memory

def sampleLog : OverMemory Nat (List Nat) :=
  ⟨{log:=[11,12],ld:=2,trimmedIdx:=1,compactedIdx:=1,snapshot:=some [10],stopsign:=some sampleStopsign},
    {batchSize:=1,decidedIdx:=2,acceptedIdx:=4,compactedIdx:=1,stopsign:=some sampleStopsign}⟩

theorem sampleLog_coherent : Coherent sampleLog := ⟨rfl,rfl,rfl,rfl,rfl,rfl,rfl⟩

theorem read_range_iff_sample : sampleLog.readRange (.included 1) .unbounded =
    .ok (some [.decided 11,.undecided 12,.stopSign sampleStopsign false]) :=
  (read_range_iff sampleLog sampleLog_coherent (by decide) (by decide) (by decide) (.included 1) .unbounded).mpr
    (by decide)

-- A range that begins in the compacted part ends the caller instead of showing it as trimmed.
theorem trimmed_range_panics : ¬ ∀ (s : OverMemory Nat (List Nat)), Coherent s →
    s.stateCache.compactedIdx ≤ s.stateCache.decidedIdx → s.stateCache.decidedIdx ≤ s.stateCache.acceptedIdx →
    s.stateCache.acceptedIdx < 2^64 → ∀ start stop : Bound,
    s.readRange start stop = .ok (s.expectedRead start.first (stop.last s.stateCache.acceptedIdx)) := by
  intro answered
  have shown := answered sampleLog sampleLog_coherent (by decide) (by decide) (by decide) (.included 0) (.excluded 2)
  have ended : sampleLog.readRange (.included 0) (.excluded 2) = .error .panic := rfl
  rw [ended] at shown
  cases shown

end InternalStorage
end OmniPaxosKV

import OmniPaxosKV.LogSync
import OmniPaxosKV.Machine

namespace OmniPaxosKV
namespace MemoryStorage
variable {T S : Type}

-- The storage once everything before `idx` has left it.
def compactTo (idx : Nat) (s : MemoryStorage T S) : MemoryStorage T S :=
  {s with log:=s.log.drop (idx-s.trimmedIdx),trimmedIdx:=idx,compactedIdx:=idx}

theorem perform_trim (s : MemoryStorage T S) (ahead : s.trimmedIdx ≤ idx) :
    perform (.trim idx) s = (.ok (),{s with log:=s.log.drop (idx-s.trimmedIdx),trimmedIdx:=idx}) := by
  have clamped : s.log.drop (min (idx-s.trimmedIdx) s.log.length) = s.log.drop (idx-s.trimmedIdx) := by
    rcases Nat.le_total (idx-s.trimmedIdx) s.log.length with within | past
    · rw [Nat.min_eq_left within]
    · rw [Nat.min_eq_right past,List.drop_of_length_le past,List.drop_length]
  simp only [perform,trim,checkedSub,ahead,if_true,clamped]

theorem perform_appendOnPrefix (s : MemoryStorage T S) (entries : List T) (ahead : s.trimmedIdx ≤ idx) :
    perform (.appendOnPrefix idx entries) s = (.ok (),{s with log:=s.log.take (idx-s.trimmedIdx)++entries}) := by
  simp only [perform,appendOnPrefix,checkedSub,ahead,if_true]

@[simp] theorem writeAtomically_nil (s : MemoryStorage T S) : writeAtomically [] s = (.ok (),s) := rfl

theorem writeAtomically_cons {s middle : MemoryStorage T S} {rest : List (StorageOp T S)}
    (first : perform op s = (.ok (),middle)) : writeAtomically (op::rest) s = writeAtomically rest middle := by
  simp only [writeAtomically,first]

theorem writeAtomically_append {s middle : MemoryStorage T S} {rest : List (StorageOp T S)}
    (first : writeAtomically ops s = (.ok (),middle)) : writeAtomically (ops++rest) s = writeAtomically rest middle := by
  induction ops generalizing s with
  | nil => cases first; rfl
  | cons op ops ih =>
    cases result : perform op s with
    | mk outcome next => cases outcome with
      | error fault => simp only [writeAtomically,result] at first; cases first
      | ok =>
        rw [List.cons_append,writeAtomically_cons result]
        rw [writeAtomically_cons result] at first
        exact ih first

theorem write_compaction (s : MemoryStorage T S) (rest : List (StorageOp T S)) (ahead : s.trimmedIdx ≤ idx) :
    writeAtomically (.trim idx::.setCompactedIdx idx::rest) s = writeAtomically rest (s.compactTo idx) := by
  rw [writeAtomically_cons (perform_trim s ahead),writeAtomically_cons rfl]
  rfl

-- One past the last stored entry.
def logEnd (s : MemoryStorage T S) : Nat := s.log.length+s.compactedIdx

theorem getEntries_ok (s : MemoryStorage T S) (ahead : s.trimmedIdx ≤ start) (later : s.trimmedIdx ≤ stop) :
    s.getEntries start stop = .ok (if start ≤ stop ∧ stop ≤ s.log.length+s.trimmedIdx then
      (s.log.take (stop-s.trimmedIdx)).drop (start-s.trimmedIdx) else []) := by
  simp only [getEntries,checkedSub,ahead,later,if_true]
  have shifted : start-s.trimmedIdx ≤ stop-s.trimmedIdx ∧ stop-s.trimmedIdx ≤ s.log.length ↔
      start ≤ stop ∧ stop ≤ s.log.length+s.trimmedIdx := by omega
  simp only [pure,bind,Except.pure,Except.bind,shifted]

theorem getSuffix_ok (s : MemoryStorage T S) (ahead : s.trimmedIdx ≤ start) :
    s.getSuffix start = .ok (s.log.drop (start-s.trimmedIdx)) := by
  simp only [getSuffix,checkedSub,ahead,if_true]
  rfl

-- The stored snapshot carried on over further entries.
def foldedOver [Snapshot T S] (s : MemoryStorage T S) (entries : List T) : S :=
  match s.snapshot with
  | some snapshot => Snapshot.merge snapshot (Snapshot.create entries)
  | none => Snapshot.create entries

end MemoryStorage

namespace InternalStorage
variable {T S : Type}

abbrev OverMemory (T S : Type) := InternalStorage (MemoryStorage T S) T

-- How many slots of the log a stop-sign takes.
def slots (ss : Option StopSign) : Nat := if ss.isSome then 1 else 0

-- The cache says of the storage what a reload would say, and the storage has
-- dropped exactly the compacted part.
structure Coherent (s : OverMemory T S) : Prop where
  trimmed : s.storage.trimmedIdx = s.storage.compactedIdx
  promise : s.stateCache.promise = s.storage.nProm.getD {}
  acceptedRound : s.stateCache.acceptedRound = s.storage.accRound.getD {}
  decided : s.stateCache.decidedIdx = s.storage.ld
  compacted : s.stateCache.compactedIdx = s.storage.compactedIdx
  stopsign : s.stateCache.stopsign = s.storage.stopsign
  accepted : s.stateCache.acceptedIdx = s.storage.log.length+s.storage.compactedIdx+slots s.storage.stopsign

theorem loadCache_memory (s : OverMemory T S) :
    loadCache s = .ok ⟨s.storage,{s.stateCache with
      promise:=s.storage.nProm.getD {}
      decidedIdx:=s.storage.ld
      acceptedRound:=s.storage.accRound.getD {}
      compactedIdx:=s.storage.compactedIdx
      stopsign:=s.storage.stopsign
      acceptedIdx:=s.storage.log.length+s.storage.compactedIdx+slots s.storage.stopsign}⟩ := rfl

theorem Coherent.reload {s : OverMemory T S} (valid : Coherent s) : loadCache s = .ok s := by
  rw [loadCache_memory,←valid.promise,←valid.acceptedRound,←valid.decided,←valid.compacted,←valid.stopsign]
  have accepted := valid.accepted
  rw [←valid.compacted,←valid.stopsign] at accepted
  rw [←accepted]

theorem new_coherent (storage : MemoryStorage T S) (batchSize : Nat) (s : OverMemory T S)
    (aligned : storage.trimmedIdx = storage.compactedIdx) (opened : new storage batchSize = .ok s) :
    Coherent s ∧ s.storage = storage := by
  rw [new,loadCache_memory] at opened
  cases opened
  exact ⟨⟨aligned,rfl,rfl,rfl,rfl,rfl,rfl⟩,rfl⟩

-- The state a compaction leaves.
def afterCompaction (idx : Nat) (s : OverMemory T S) : OverMemory T S :=
  ⟨s.storage.compactTo idx,{s.stateCache with compactedIdx:=idx}⟩

theorem compact_trim (s : OverMemory T S) (ahead : s.storage.trimmedIdx ≤ idx) :
    compact idx [.trim idx,.setCompactedIdx idx] s = (.ok (),s.afterCompaction idx) := by
  have wrote := MemoryStorage.write_compaction s.storage [] ahead
  simp only [MemoryStorage.writeAtomically_nil] at wrote
  simp only [compact,Storage.writeAtomically,wrote,afterCompaction]

theorem compact_snapshot (s : OverMemory T S) (snapshot : S) (ahead : s.storage.trimmedIdx ≤ idx) :
    compact idx [.trim idx,.setCompactedIdx idx,.setSnapshot (some snapshot)] s =
      (.ok (),⟨{s.storage.compactTo idx with snapshot:=some snapshot},(s.afterCompaction idx).stateCache⟩) := by
  have wrote := MemoryStorage.write_compaction s.storage [.setSnapshot (some snapshot)] ahead
  simp only [compact,Storage.writeAtomically,wrote,afterCompaction]
  rfl

theorem Coherent.batch {s : OverMemory T S} (valid : Coherent s) (entries : List T) :
    Coherent {s with stateCache:={s.stateCache with batchedEntries:=entries}} :=
  ⟨valid.trimmed,valid.promise,valid.acceptedRound,valid.decided,valid.compacted,valid.stopsign,valid.accepted⟩

theorem Coherent.append {s next : OverMemory T S} (valid : Coherent s) (entries : List T)
    (ran : s.appendEntriesWithoutBatching entries = (.ok idx,next)) : Coherent next := by
  cases ran
  refine ⟨valid.trimmed,valid.promise,valid.acceptedRound,valid.decided,valid.compacted,valid.stopsign,?_⟩
  have accepted := valid.accepted
  simp only [List.length_append]
  omega

-- A stop-sign added, replaced or taken away: its slot is counted afresh.
theorem Coherent.setStopsign_memory {s : OverMemory T S} (valid : Coherent s) (ss : Option StopSign) :
    let accepted := s.storage.log.length+s.storage.compactedIdx+slots ss
    setStopsign ss s =
      (.ok accepted,⟨{s.storage with stopsign:=ss},{s.stateCache with acceptedIdx:=accepted,stopsign:=ss}⟩) := by
  have counted := valid.accepted
  rw [←valid.stopsign] at counted
  have counts : s.stateCache.countStopsign ss = .ok (s.storage.log.length+s.storage.compactedIdx+slots ss) := by
    cases ss <;> cases old : s.stateCache.stopsign
    all_goals
      rw [old] at counted
      simp [StateCache.countStopsign,old,counted,checkedSub,slots]
  simp only [setStopsign,counts]
  rfl

theorem Coherent.compaction {s : OverMemory T S} (valid : Coherent s) (ahead : s.storage.compactedIdx ≤ idx)
    (within : idx ≤ s.storage.logEnd) : Coherent (s.afterCompaction idx) := by
  refine ⟨rfl,valid.promise,valid.acceptedRound,valid.decided,rfl,valid.stopsign,?_⟩
  have accepted := valid.accepted
  have trimmed := valid.trimmed
  unfold MemoryStorage.logEnd at within
  simp only [afterCompaction,MemoryStorage.compactTo,List.length_drop]
  omega

-- The decided entries end with the stored ones: the stop-sign's slot comes after.
theorem Coherent.decided_entries {s : OverMemory T S} (valid : Coherent s)
    (within : s.stateCache.decidedIdx ≤ s.stateCache.acceptedIdx) :
    s.getDecidedIdxWithoutStopsign = .ok (min s.stateCache.decidedIdx s.storage.logEnd) := by
  have counted := valid.accepted
  rw [←valid.stopsign] at counted
  unfold getDecidedIdxWithoutStopsign StateCache.stopsignIsDecided checkedSub MemoryStorage.logEnd
  cases sign : s.stateCache.stopsign with
  | none =>
    simp only [sign,slots,Option.isSome_none,Bool.false_and,Bool.false_eq_true,if_false] at counted ⊢
    rw [Nat.min_eq_left (by omega)]
  | some ss =>
    simp only [sign,slots,Option.isSome_some,Bool.true_and,beq_iff_eq,if_true] at counted ⊢
    split
    · rw [if_pos (by omega),Nat.min_eq_right (by omega)]
      congr 1
      omega
    · rw [Nat.min_eq_left (by omega)]

theorem Coherent.compaction_target {s : OverMemory T S} (valid : Coherent s)
    (within : s.stateCache.decidedIdx ≤ s.stateCache.acceptedIdx) (idx : Nat) :
    s.compactionIdx idx = if idx ≤ s.stateCache.decidedIdx then .ok (min idx s.storage.logEnd)
      else .error (.compaction (.undecidedIndex s.stateCache.decidedIdx)) := by
  have counted := valid.accepted
  rw [←valid.stopsign] at counted
  have single : slots s.stateCache.stopsign ≤ 1 := by unfold slots; split <;> omega
  rw [compactionIdx,valid.decided_entries within]
  rcases Nat.lt_trichotomy idx s.stateCache.decidedIdx with below | rfl | above
  · have stored : idx ≤ s.storage.logEnd := by unfold MemoryStorage.logEnd; omega
    simp only [below,if_true,Nat.le_of_lt below,Nat.min_eq_left stored]
  · simp only [Nat.lt_irrefl,if_false,if_true,Nat.le_refl]
  · simp only [Nat.lt_asymm above,Nat.ne_of_gt above,Nat.not_le.mpr above,if_false]

-- Asking for a snapshot at no index is asking for it at the decided index.
theorem Coherent.snapshot_target {s : OverMemory T S} (valid : Coherent s)
    (within : s.stateCache.decidedIdx ≤ s.stateCache.acceptedIdx) (idx : Option Nat) :
    s.snapshotTarget idx = s.compactionIdx (idx.getD s.stateCache.decidedIdx) := by
  cases idx with
  | some idx => rfl
  | none =>
    rw [Option.getD_none,valid.compaction_target within,if_pos (Nat.le_refl _)]
    exact valid.decided_entries within

def compactUpTo (target : Nat) (s : OverMemory T S) : OverMemory T S :=
  if s.stateCache.compactedIdx < target then s.afterCompaction target else s

theorem Coherent.tryTrim_memory {s : OverMemory T S} (valid : Coherent s)
    (within : s.stateCache.decidedIdx ≤ s.stateCache.acceptedIdx) (idx : Nat) :
    tryTrim idx s = if idx ≤ s.stateCache.decidedIdx then (.ok (),s.compactUpTo (min idx s.storage.logEnd))
      else (.error (.compaction (.undecidedIndex s.stateCache.decidedIdx)),s) := by
  rw [tryTrim,valid.compaction_target within]
  by_cases decided : idx ≤ s.stateCache.decidedIdx
  · simp only [decided,if_true,compactUpTo]
    split
    · rename_i ahead
      have reached : s.storage.trimmedIdx ≤ min idx s.storage.logEnd := by
        have := valid.compacted
        have := valid.trimmed
        omega
      exact compact_trim s reached
    · rfl
  · simp only [decided,if_false]

section Snapshots
variable [Snapshot T S]

-- Reading past the end of the log reads nothing.
theorem createSnapshot_aligned {s : OverMemory T S} (trimmed : s.storage.trimmedIdx = s.storage.compactedIdx)
    (compacted : s.stateCache.compactedIdx = s.storage.compactedIdx) (ahead : s.stateCache.compactedIdx ≤ idx) :
    s.createSnapshot idx = .ok (s.storage.foldedOver
      (if idx ≤ s.storage.logEnd then s.storage.log.take (idx-s.stateCache.compactedIdx) else [])) := by
  have read : s.storage.getEntries s.stateCache.compactedIdx idx = _ := s.storage.getEntries_ok (by omega) (by omega)
  rw [trimmed,←compacted,Nat.sub_self,List.drop_zero] at read
  simp only [ahead,true_and] at read
  rw [createSnapshot,if_neg (Nat.not_lt.mpr ahead),MemoryStorage.logEnd,←compacted]
  simp only [Storage.getEntries,Storage.getSnapshot,read,bind,Except.bind,pure,Except.pure]
  rfl

theorem Coherent.createSnapshot_memory {s : OverMemory T S} (valid : Coherent s)
    (ahead : s.stateCache.compactedIdx ≤ idx) (short : idx ≤ s.storage.logEnd) :
    s.createSnapshot idx = .ok (s.storage.foldedOver (s.storage.log.take (idx-s.stateCache.compactedIdx))) := by
  rw [createSnapshot_aligned valid.trimmed valid.compacted ahead,if_pos short]

def snapshotUpTo (target : Nat) (s : OverMemory T S) : OverMemory T S :=
  if s.stateCache.compactedIdx < target then
    ⟨{s.storage.compactTo target with
      snapshot:=some (s.storage.foldedOver (s.storage.log.take (target-s.stateCache.compactedIdx)))},
      (s.afterCompaction target).stateCache⟩
  else s

theorem Coherent.trySnapshot_memory {s : OverMemory T S} (valid : Coherent s)
    (within : s.stateCache.decidedIdx ≤ s.stateCache.acceptedIdx) (idx : Option Nat) :
    trySnapshot idx s = if idx.getD s.stateCache.decidedIdx ≤ s.stateCache.decidedIdx then
        (.ok (),s.snapshotUpTo (min (idx.getD s.stateCache.decidedIdx) s.storage.logEnd))
      else (.error (.compaction (.undecidedIndex s.stateCache.decidedIdx)),s) := by
  rw [trySnapshot,valid.snapshot_target within,valid.compaction_target within]
  by_cases decided : idx.getD s.stateCache.decidedIdx ≤ s.stateCache.decidedIdx
  · simp only [decided,if_true,snapshotUpTo]
    split
    · rename_i ahead
      have reached : s.storage.trimmedIdx ≤ min (idx.getD s.stateCache.decidedIdx) s.storage.logEnd := by
        have := valid.compacted
        have := valid.trimmed
        omega
      rw [valid.createSnapshot_memory (Nat.le_of_lt ahead) (Nat.min_le_right _ _)]
      exact compact_snapshot s _ reached
    · rfl
  · simp only [decided,if_false]

end Snapshots

-- What a successful sync leaves in the storage.
def syncStorage (acceptedRound : Ballot) (decidedIdx : Nat) (sync : LogSync T S) (snapshot : Option S)
    (s : MemoryStorage T S) : MemoryStorage T S :=
  match snapshot with
  | none => {s with
      accRound:=some acceptedRound,ld:=decidedIdx
      log:=s.log.take (sync.syncIdx-s.trimmedIdx)++sync.suffix,stopsign:=sync.stopsign}
  | some snapshot => {s with
      accRound:=some acceptedRound,ld:=decidedIdx,log:=sync.suffix,stopsign:=sync.stopsign
      trimmedIdx:=sync.syncIdx,compactedIdx:=sync.syncIdx,snapshot:=some snapshot}

theorem write_stopsign (s : MemoryStorage T S) (ss cached : Option StopSign) (same : cached = s.stopsign) :
    MemoryStorage.writeAtomically (match ss,cached with
      | some ss,_ => [.setStopsign (some ss)]
      | none,some _ => [.setStopsign none]
      | none,none => []) s = (.ok (),{s with stopsign:=ss}) := by
  cases ss with
  | some ss => rfl
  | none => cases cached with
    | some _ => rfl
    | none => rw [MemoryStorage.writeAtomically_nil,same]

theorem write_sync (s : OverMemory T S) (acceptedRound : Ballot) (decidedIdx : Nat) (sync : LogSync T S)
    (snapshot : Option S) (ahead : s.storage.trimmedIdx ≤ sync.syncIdx) (same : s.stateCache.stopsign = s.storage.stopsign) :
    MemoryStorage.writeAtomically
      ([.setAcceptedRound acceptedRound,.setDecidedIndex decidedIdx]++s.syncTxn sync snapshot) s.storage =
      (.ok (),syncStorage acceptedRound decidedIdx sync snapshot s.storage) := by
  let opened : MemoryStorage T S := {s.storage with accRound:=some acceptedRound,ld:=decidedIdx}
  have opening : MemoryStorage.writeAtomically
      [.setAcceptedRound acceptedRound,.setDecidedIndex decidedIdx] s.storage = (.ok (),opened) := rfl
  rw [MemoryStorage.writeAtomically_append opening]
  cases snapshot with
  | none =>
    simp only [syncTxn,List.nil_append,List.singleton_append]
    rw [MemoryStorage.writeAtomically_cons (MemoryStorage.perform_appendOnPrefix opened sync.suffix ahead)]
    exact write_stopsign _ sync.stopsign _ same
  | some snapshot =>
    simp only [syncTxn,List.cons_append,List.nil_append]
    rw [MemoryStorage.write_compaction opened _ ahead]
    -- The snapshot's own index is where the kept prefix ends: nothing is kept.
    let installed : MemoryStorage T S := {opened.compactTo sync.syncIdx with snapshot:=some snapshot}
    have emptied : MemoryStorage.perform (.appendOnPrefix sync.syncIdx sync.suffix) installed =
        (.ok (),{installed with log:=sync.suffix}) := by
      have reached : installed.trimmedIdx ≤ sync.syncIdx := Nat.le_refl _
      rw [MemoryStorage.perform_appendOnPrefix installed sync.suffix reached]
      simp only [installed,MemoryStorage.compactTo,Nat.sub_self,List.take_zero,List.nil_append]
    have put : MemoryStorage.perform (.setSnapshot (some snapshot)) (opened.compactTo sync.syncIdx) = (.ok (),installed) := rfl
    rw [MemoryStorage.writeAtomically_cons put,MemoryStorage.writeAtomically_cons emptied]
    exact write_stopsign _ sync.stopsign _ same

-- Every operation that writes, with its arguments.
inductive Operation (T S : Type) where
  | appendEntriesAndGetAcceptedIdx (entries : List T)
  | flushBatch
  | appendEntriesWithoutBatching (entries : List T)
  | syncLog (acceptedRound : Ballot) (decidedIdx : Nat) (logSync : Option (LogSync T S))
  | tryTrim (idx : Nat)
  | trySnapshot (snapshotIdx : Option Nat)
  | setPromise (ballot : Ballot)
  | setDecidedIdx (idx : Nat)
  | setStopsign (ss : Option StopSign)

def dropResult (outcome : StorageResult α × State) : StorageResult Unit × State :=
  (outcome.1.map fun _ => (),outcome.2)

def Operation.perform [Storage B T S] [Snapshot T S] : Operation T S → StorageCall (InternalStorage B T) Unit
  | .appendEntriesAndGetAcceptedIdx entries => fun s => dropResult (s.appendEntriesAndGetAcceptedIdx entries)
  | .flushBatch => fun s => dropResult s.flushBatch
  | .appendEntriesWithoutBatching entries => fun s => dropResult (s.appendEntriesWithoutBatching entries)
  | .syncLog acceptedRound decidedIdx logSync => fun s => dropResult (s.syncLog acceptedRound decidedIdx logSync)
  | .tryTrim idx => InternalStorage.tryTrim idx
  | .trySnapshot snapshotIdx => InternalStorage.trySnapshot snapshotIdx
  | .setPromise ballot => InternalStorage.setPromise ballot
  | .setDecidedIdx idx => InternalStorage.setDecidedIdx idx
  | .setStopsign ss => fun s => dropResult (s.setStopsign ss)

-- Appending through the batch either only grows it, or empties it into the back-end.
theorem appendBatched_cases [Storage B T S] (s : InternalStorage B T) (entries : List T) :
    ((s.stateCache.appendEntries entries).1 = none ∧
      dropResult (s.appendEntriesAndGetAcceptedIdx entries) =
        (.ok (),{s with stateCache:={s.stateCache with batchedEntries:=s.stateCache.batchedEntries++entries}})) ∨
    ((s.stateCache.appendEntries entries).1 = some (s.stateCache.batchedEntries++entries) ∧
      dropResult (s.appendEntriesAndGetAcceptedIdx entries) =
        dropResult (({s with stateCache:={s.stateCache with batchedEntries:=[]}} :
          InternalStorage B T).appendEntriesWithoutBatching (s.stateCache.batchedEntries++entries))) := by
  unfold appendEntriesAndGetAcceptedIdx StateCache.appendEntries StateCache.takeEntriesIfBatchIsFull
  by_cases full : s.stateCache.batchSize ≤ (s.stateCache.batchedEntries++entries).length
  · simp only [full,if_true]
    refine .inr ⟨rfl,?_⟩
    dsimp only [StateCache.takeBatchedEntries]
    split <;> rename_i stored <;> rw [stored] <;> rfl
  · simp only [full,if_false]
    exact .inl ⟨trivial,rfl⟩

-- A run takes the operations that succeed.
def succeed [Storage B T S] [Snapshot T S] (s : InternalStorage B T) (op : Operation T S) : Option (InternalStorage B T) :=
  match op.perform s with
  | (.ok (),next) => some next
  | (.error _,_) => none

theorem syncCache_accepted (cache : StateCache T) (sync : LogSync T S) (snapshot : Option S) :
    (syncCache cache sync snapshot).acceptedIdx = sync.syncIdx+sync.suffix.length+slots sync.stopsign := rfl

section Runs
variable [Snapshot T S]

theorem syncLog_memory (s : OverMemory T S) (acceptedRound : Ballot) (decidedIdx : Nat) (sync : LogSync T S)
    (snapshot : Option S) (ahead : s.storage.trimmedIdx ≤ sync.syncIdx) (same : s.stateCache.stopsign = s.storage.stopsign)
    (built : (syncStart acceptedRound decidedIdx s).syncSnapshot sync = .ok snapshot) :
    syncLog acceptedRound decidedIdx (some sync) s =
      (.ok (sync.syncIdx+sync.suffix.length+slots sync.stopsign),
        ⟨syncStorage acceptedRound decidedIdx sync snapshot s.storage,
          syncCache (syncStart acceptedRound decidedIdx s).stateCache sync snapshot⟩) := by
  have wrote := write_sync (syncStart acceptedRound decidedIdx s) acceptedRound decidedIdx sync snapshot ahead same
  simp only [syncLog,built,commit,Storage.writeAtomically]
  rw [wrote]
  rfl

theorem succeed_iff [Storage B T S] (s : InternalStorage B T) (op : Operation T S) :
    succeed s op = some next ↔ op.perform s = (.ok (),next) := by
  unfold succeed
  rcases op.perform s with ⟨_ | _,_⟩ <;> simp

theorem dropResult_ok {outcome : StorageResult α × State} :
    dropResult outcome = (.ok (),next) ↔ ∃ value, outcome = (.ok value,next) := by
  rcases outcome with ⟨_ | value,s⟩ <;> simp [dropResult,Except.map]

omit [Snapshot T S] in
theorem compactUpTo_coherent {s : OverMemory T S} (valid : Coherent s) (short : target ≤ s.storage.logEnd) :
    Coherent (s.compactUpTo target) := by
  have compacted := valid.compacted
  unfold compactUpTo
  split
  · exact valid.compaction (by omega) short
  · exact valid

theorem snapshotUpTo_coherent {s : OverMemory T S} (valid : Coherent s) (short : target ≤ s.storage.logEnd) :
    Coherent (s.snapshotUpTo target) := by
  have compacted := valid.compacted
  unfold snapshotUpTo
  split
  · have moved : Coherent (s.afterCompaction target) := valid.compaction (by omega) short
    exact ⟨moved.trimmed,moved.promise,moved.acceptedRound,moved.decided,moved.compacted,moved.stopsign,moved.accepted⟩
  · exact valid

-- A sync starts at or after the compacted part and, unless it brings a snapshot,
-- at or before the end of the stored entries.
def InRange (s : OverMemory T S) : Operation T S → Prop
  | .syncLog _ _ (some sync) => s.stateCache.compactedIdx ≤ sync.syncIdx ∧
      (sync.decidedSnapshot.isNone → sync.syncIdx ≤ s.stateCache.compactedIdx+s.storage.log.length)
  | _ => True

theorem sync_coherent {s next : OverMemory T S} (valid : Coherent s)
    (fits : s.InRange (.syncLog acceptedRound decidedIdx logSync))
    (ran : s.syncLog acceptedRound decidedIdx logSync = (.ok idx,next)) : Coherent next := by
  cases logSync with
  | none =>
    cases ran
    exact ⟨valid.trimmed,valid.promise,rfl,rfl,valid.compacted,valid.stopsign,valid.accepted⟩
  | some sync =>
    obtain ⟨ahead,short⟩ := fits
    have reached : s.storage.trimmedIdx ≤ sync.syncIdx := by have := valid.compacted; have := valid.trimmed; omega
    cases built : (syncStart acceptedRound decidedIdx s).syncSnapshot sync with
    | error fault => simp only [syncLog,built] at ran; cases ran
    | ok snapshot =>
      rw [syncLog_memory s acceptedRound decidedIdx sync snapshot reached valid.stopsign built] at ran
      cases ran
      cases snapshot with
      | some snapshot =>
        refine ⟨rfl,valid.promise,rfl,rfl,rfl,rfl,?_⟩
        rw [syncCache_accepted]
        simp only [syncStorage]
        omega
      | none =>
        have plain : sync.decidedSnapshot.isNone := by
          unfold syncSnapshot at built
          split at built
          · rename_i absent; rw [absent]; rfl
          · cases built
          · cases own : (syncStart acceptedRound decidedIdx s).createDecidedSnapshot with
            | error => rw [own] at built; cases built
            | ok => rw [own] at built; cases built
        refine ⟨valid.trimmed,valid.promise,rfl,rfl,valid.compacted,rfl,?_⟩
        have trimmed := valid.trimmed
        have compacted := valid.compacted
        have fits := short plain
        rw [syncCache_accepted]
        simp only [syncStorage,List.length_append,List.length_take]
        omega

theorem step_coherent {s next : OverMemory T S} (valid : Coherent s)
    (within : s.stateCache.decidedIdx ≤ s.stateCache.acceptedIdx) (fits : s.InRange op)
    (ran : succeed s op = some next) : Coherent next := by
  rw [succeed_iff] at ran
  cases op with
  | appendEntriesAndGetAcceptedIdx entries =>
    rcases appendBatched_cases s entries with ⟨_,grown⟩ | ⟨_,flushed⟩
    · cases grown.symm.trans ran
      exact valid.batch _
    · obtain ⟨idx,stored⟩ := dropResult_ok.mp (flushed.symm.trans ran)
      exact (valid.batch []).append _ stored
  | flushBatch =>
    obtain ⟨idx,ran⟩ := dropResult_ok.mp ran
    exact (valid.batch []).append _ ran
  | appendEntriesWithoutBatching entries =>
    obtain ⟨idx,ran⟩ := dropResult_ok.mp ran
    exact valid.append _ ran
  | syncLog acceptedRound decidedIdx logSync =>
    obtain ⟨idx,ran⟩ := dropResult_ok.mp ran
    exact sync_coherent valid fits ran
  | tryTrim idx =>
    rw [Operation.perform,valid.tryTrim_memory within] at ran
    split at ran
    · cases ran
      exact compactUpTo_coherent valid (Nat.min_le_right _ _)
    · cases ran
  | trySnapshot idx =>
    rw [Operation.perform,valid.trySnapshot_memory within] at ran
    split at ran
    · cases ran
      exact snapshotUpTo_coherent valid (Nat.min_le_right _ _)
    · cases ran
  | setPromise ballot =>
    cases ran
    exact ⟨valid.trimmed,rfl,valid.acceptedRound,valid.decided,valid.compacted,valid.stopsign,valid.accepted⟩
  | setDecidedIdx idx =>
    cases ran
    exact ⟨valid.trimmed,valid.promise,valid.acceptedRound,rfl,valid.compacted,valid.stopsign,valid.accepted⟩
  | setStopsign ss =>
    obtain ⟨idx,ran⟩ := dropResult_ok.mp ran
    rw [valid.setStopsign_memory] at ran
    cases ran
    exact ⟨valid.trimmed,valid.promise,valid.acceptedRound,valid.decided,valid.compacted,rfl,rfl⟩

-- An operation in range after which no more is decided than accepted.
def Bounded (s : OverMemory T S) (op : Operation T S) : Prop :=
  s.InRange op ∧ ∀ next ∈ succeed s op, next.stateCache.decidedIdx ≤ next.stateCache.acceptedIdx

instance (s : OverMemory T S) (op : Operation T S) : Decidable (s.InRange op) :=
  match op with
  | .syncLog _ _ (some _) => inferInstanceAs (Decidable (_ ∧ _))
  | .syncLog _ _ none => .isTrue trivial
  | .appendEntriesAndGetAcceptedIdx _ => .isTrue trivial
  | .flushBatch => .isTrue trivial
  | .appendEntriesWithoutBatching _ => .isTrue trivial
  | .tryTrim _ => .isTrue trivial
  | .trySnapshot _ => .isTrue trivial
  | .setPromise _ => .isTrue trivial
  | .setDecidedIdx _ => .isTrue trivial
  | .setStopsign _ => .isTrue trivial

instance (s : OverMemory T S) (op : Operation T S) : Decidable (s.Bounded op) := inferInstanceAs (Decidable (_ ∧ _))

omit [Snapshot T S] in
theorem reload_fields {s : OverMemory T S} (valid : Coherent s) (batchSize : Nat) :
    ∃ loaded : OverMemory T S, new s.storage batchSize = .ok loaded ∧
      loaded.stateCache.promise = s.stateCache.promise ∧
      loaded.stateCache.acceptedRound = s.stateCache.acceptedRound ∧
      loaded.stateCache.decidedIdx = s.stateCache.decidedIdx ∧
      loaded.stateCache.compactedIdx = s.stateCache.compactedIdx ∧
      loaded.stateCache.stopsign = s.stateCache.stopsign ∧
      loaded.stateCache.acceptedIdx = s.stateCache.acceptedIdx := by
  refine ⟨_,loadCache_memory _,valid.promise.symm,valid.acceptedRound.symm,valid.decided.symm,
    valid.compacted.symm,valid.stopsign.symm,valid.accepted.symm⟩

-- However a run of successful operations went, loading the cache again from the
-- storage it left gives the cache that the run kept.
theorem run_cache_coherent (storage : MemoryStorage T S) (batchSize : Nat) (start final : OverMemory T S)
    (ops : List (Operation T S)) (aligned : storage.trimmedIdx = storage.compactedIdx)
    (opened : new storage batchSize = .ok start)
    (within : start.stateCache.decidedIdx ≤ start.stateCache.acceptedIdx)
    (path : Machine.Runs succeed Bounded start ops final) :
    loadCache final = .ok final ∧ ∀ size, ∃ loaded : OverMemory T S, new final.storage size = .ok loaded ∧
      loaded.stateCache.promise = final.stateCache.promise ∧
      loaded.stateCache.acceptedRound = final.stateCache.acceptedRound ∧
      loaded.stateCache.decidedIdx = final.stateCache.decidedIdx ∧
      loaded.stateCache.compactedIdx = final.stateCache.compactedIdx ∧
      loaded.stateCache.stopsign = final.stateCache.stopsign ∧
      loaded.stateCache.acceptedIdx = final.stateCache.acceptedIdx := by
  have kept := path.invariant
    (fun s => Coherent s ∧ s.stateCache.decidedIdx ≤ s.stateCache.acceptedIdx)
    (fun s op next valid bounded ran => ⟨step_coherent valid.1 valid.2 bounded.1 ran,bounded.2 next ran⟩)
    ⟨(new_coherent storage batchSize start aligned opened).1,within⟩
  exact ⟨kept.1.reload,reload_fields kept.1⟩

end Runs

-- A snapshot that keeps every entry it was made of.
instance wholeLog : Snapshot T (List T) where
  create entries := entries
  merge snapshot delta := snapshot++delta
  useSnapshots := true

def sampleStopsign : StopSign := ⟨⟨2,[1,2,3],none⟩,none⟩

def sampleOperations : List (Operation Nat (List Nat)) :=
  [.appendEntriesAndGetAcceptedIdx [10,11],.appendEntriesAndGetAcceptedIdx [12],.setDecidedIdx 2,.trySnapshot none,
    .setStopsign (some sampleStopsign),.setPromise {n:=1,pid:=2},
    .syncLog {n:=1,pid:=2} 3 (some ⟨some (.delta [20]),[21],3,none⟩),.tryTrim 3]

theorem run_cache_coherent_sample : ∃ final : OverMemory Nat (List Nat),
    final.stateCache.acceptedIdx = 4 ∧ final.storage.snapshot = some [10,11,12,20] ∧ loadCache final = .ok final := by
  obtain ⟨final,path,reached⟩ := Machine.run_reaches (succeed (T:=Nat) (S:=List Nat)) Bounded
    (fun s => s.stateCache.acceptedIdx = 4 ∧ s.storage.snapshot = some [10,11,12,20])
    ⟨{},{batchSize:=3}⟩ sampleOperations (by decide +kernel)
  exact ⟨final,reached.1,reached.2,(run_cache_coherent {} 3 _ final _ rfl rfl (by decide) path).1⟩


section Failures
variable {B : Type} [Storage B T S] [Snapshot T S]

-- A back-end that a refused call leaves as it was.
structure Atomic (B : Type) {T S : Type} [Storage B T S] : Prop where
  writeAtomically : ∀ (ops : List (StorageOp T S)) (b next : B) fault,
    Storage.writeAtomically ops b = (.error fault,next) → next = b
  appendEntries : ∀ (entries : List T) (b next : B) fault, Storage.appendEntries entries b = (.error fault,next) → next = b
  setPromise : ∀ ballot (b next : B) fault, Storage.setPromise ballot b = (.error fault,next) → next = b
  setDecidedIdx : ∀ idx (b next : B) fault, Storage.setDecidedIdx idx b = (.error fault,next) → next = b
  setStopsign : ∀ ss (b next : B) fault, Storage.setStopsign ss b = (.error fault,next) → next = b

-- The operation has nothing to lose: what it writes to the cache before the
-- back-end answers is already there, and no batched entry is taken out.
def Harmless (s : InternalStorage B T) : Operation T S → Prop
  | .appendEntriesAndGetAcceptedIdx _ => s.stateCache.batchedEntries = []
  | .flushBatch => s.stateCache.batchedEntries = []
  | .syncLog acceptedRound decidedIdx logSync =>
    acceptedRound = s.stateCache.acceptedRound ∧ decidedIdx = s.stateCache.decidedIdx ∧
      ∀ sync, logSync = some sync → ∀ snapshot, s.syncSnapshot sync = .ok snapshot →
        (snapshot.isSome → sync.syncIdx = s.stateCache.compactedIdx) ∧
        sync.syncIdx+sync.suffix.length+slots sync.stopsign = s.stateCache.acceptedIdx ∧
        sync.stopsign = s.stateCache.stopsign
  | .setPromise ballot => ballot = s.stateCache.promise
  | .setDecidedIdx idx => idx = s.stateCache.decidedIdx
  | .setStopsign ss => ss = s.stateCache.stopsign
  | .appendEntriesWithoutBatching _ => True
  | .tryTrim _ => True
  | .trySnapshot _ => True

theorem dropResult_error {outcome : StorageResult α × State} :
    dropResult outcome = (.error fault,next) ↔ outcome = (.error fault,next) := by
  rcases outcome with ⟨_ | value,s⟩ <;> simp [dropResult,Except.map]

omit [Snapshot T S] in
theorem append_failed {s next : InternalStorage B T} (ran : s.appendEntriesWithoutBatching entries = (.error fault,next)) :
    next.stateCache = s.stateCache := by
  unfold appendEntriesWithoutBatching at ran
  split at ran <;> cases ran
  rfl

omit [Snapshot T S] in
theorem compact_failed {s next : InternalStorage B T} (ran : compact idx txn s = (.error fault,next)) :
    next.stateCache = s.stateCache := by
  unfold compact at ran
  split at ran <;> cases ran
  rfl

omit [Snapshot T S] in
theorem tryTrim_failed {s next : InternalStorage B T} (ran : tryTrim idx s = (.error fault,next)) :
    next.stateCache = s.stateCache := by
  unfold tryTrim at ran
  split at ran
  · cases ran; rfl
  · split at ran
    · exact compact_failed ran
    · cases ran

theorem trySnapshot_failed {s next : InternalStorage B T} (ran : trySnapshot idx s = (.error fault,next)) :
    next.stateCache = s.stateCache := by
  unfold trySnapshot at ran
  split at ran
  · cases ran; rfl
  · split at ran
    · split at ran
      · cases ran; rfl
      · exact compact_failed ran
    · cases ran

omit [Snapshot T S] in
-- A flush that fails has already emptied the batch.
theorem flush_failed {s next : InternalStorage B T}
    (ran : ({s with stateCache:={s.stateCache with batchedEntries:=[]}} :
      InternalStorage B T).appendEntriesWithoutBatching entries = (.error fault,next)) :
    next.stateCache = s.stateCache ↔ s.stateCache.batchedEntries = [] := by
  rw [append_failed ran]
  constructor
  · intro same; exact (congrArg StateCache.batchedEntries same).symm
  · intro empty; simp only [←empty]

omit [Snapshot T S] in
theorem appendBatched_failed {s next : InternalStorage B T}
    (ran : dropResult (s.appendEntriesAndGetAcceptedIdx entries) = (.error fault,next)) :
    next.stateCache = s.stateCache ↔ s.stateCache.batchedEntries = [] := by
  rcases appendBatched_cases s entries with ⟨_,grown⟩ | ⟨_,flushed⟩
  · cases grown.symm.trans ran
  · exact flush_failed (dropResult_error.mp (flushed.symm.trans ran))

omit [Snapshot T S] in
theorem syncStart_same (s : InternalStorage B T) : syncStart s.stateCache.acceptedRound s.stateCache.decidedIdx s = s := rfl

omit [Storage B T S] [Snapshot T S] in
theorem syncCache_same (cache : StateCache T) (sync : LogSync T S) (snapshot : Option S) :
    syncCache cache sync snapshot = cache ↔
      (snapshot.isSome → sync.syncIdx = cache.compactedIdx) ∧
      sync.syncIdx+sync.suffix.length+slots sync.stopsign = cache.acceptedIdx ∧ sync.stopsign = cache.stopsign := by
  constructor
  · intro same
    refine ⟨fun present => ?_,congrArg StateCache.acceptedIdx same,congrArg StateCache.stopsign same⟩
    have compacted := congrArg StateCache.compactedIdx same
    simpa only [syncCache,present,if_true] using compacted
  · rintro ⟨compacted,accepted,stopsign⟩
    have index : (if snapshot.isSome then sync.syncIdx else cache.compactedIdx) = cache.compactedIdx := by
      split
      · exact compacted ‹_›
      · rfl
    unfold syncCache
    rw [index,stopsign]
    rw [stopsign] at accepted
    unfold slots at accepted
    rw [accepted]

omit [Snapshot T S] in
theorem commit_cache {s next : InternalStorage B T} (ran : commit txn s = (result,next)) :
    next.stateCache = s.stateCache := (congrArg (fun outcome => outcome.2.stateCache) ran).symm

-- How a sync can fail: before the transaction, with round and decided index
-- already cached, or in it, with the whole cache already written.
theorem syncLog_failed_parts {s next : InternalStorage B T}
    (ran : syncLog acceptedRound decidedIdx logSync s = (.error fault,next)) :
    (next.stateCache = (syncStart acceptedRound decidedIdx s).stateCache ∧
      ∀ sync, logSync = some sync → ∃ fault, (syncStart acceptedRound decidedIdx s).syncSnapshot sync = .error fault) ∨
    ∃ sync snapshot, logSync = some sync ∧ (syncStart acceptedRound decidedIdx s).syncSnapshot sync = .ok snapshot ∧
      next.stateCache = syncCache (syncStart acceptedRound decidedIdx s).stateCache sync snapshot := by
  cases logSync with
  | none =>
    simp only [syncLog] at ran
    split at ran
    · rename_i failed
      cases ran
      exact .inl ⟨commit_cache failed,fun sync absent => nomatch absent⟩
    · cases ran
  | some sync =>
    cases built : (syncStart acceptedRound decidedIdx s).syncSnapshot sync with
    | error stopped =>
      simp only [syncLog,built] at ran
      cases ran
      refine .inl ⟨rfl,fun other same => ⟨fault,?_⟩⟩
      cases same
      exact built
    | ok snapshot =>
      simp only [syncLog,built] at ran
      split at ran
      · rename_i failed
        cases ran
        exact .inr ⟨sync,snapshot,rfl,built,commit_cache failed⟩
      · cases ran

theorem syncLog_failed {s next : InternalStorage B T}
    (ran : syncLog acceptedRound decidedIdx logSync s = (.error fault,next)) :
    next.stateCache = s.stateCache ↔ Harmless s (.syncLog acceptedRound decidedIdx logSync) := by
  have started : next.stateCache.acceptedRound = acceptedRound ∧ next.stateCache.decidedIdx = decidedIdx := by
    obtain ⟨left,_⟩ | ⟨_,_,_,_,left⟩ := syncLog_failed_parts ran <;> rw [left] <;> exact ⟨rfl,rfl⟩
  by_cases known : acceptedRound = s.stateCache.acceptedRound ∧ decidedIdx = s.stateCache.decidedIdx
  · obtain ⟨rfl,rfl⟩ := known
    have parts := syncLog_failed_parts ran
    rw [syncStart_same] at parts
    obtain ⟨left,stopped⟩ | ⟨sync,snapshot,rfl,built,left⟩ := parts
    · refine iff_of_true left ⟨rfl,rfl,fun sync given snapshot built => ?_⟩
      obtain ⟨_,failed⟩ := stopped sync given
      rw [built] at failed
      cases failed
    · rw [left,syncCache_same]
      constructor
      · intro same
        refine ⟨rfl,rfl,fun other given found taken => ?_⟩
        cases given
        rw [built] at taken
        cases taken
        exact same
      · intro harmless
        exact harmless.2.2 sync rfl snapshot built
  · refine iff_of_false (fun same => known ?_) (fun harmless => known ⟨harmless.1,harmless.2.1⟩)
    rw [same] at started
    exact ⟨started.1.symm,started.2.symm⟩

omit [Snapshot T S] in
theorem setStopsign_failed {s next : InternalStorage B T} (ran : setStopsign ss s = (.error fault,next))
    (returned : fault ≠ .panic) : next.stateCache = s.stateCache ↔ ss = s.stateCache.stopsign := by
  unfold setStopsign at ran
  split at ran
  · rename_i stopped
    cases ran
    unfold StateCache.countStopsign checkedSub at stopped
    split at stopped
    · cases stopped
    · split at stopped <;> cases stopped
      exact absurd rfl returned
    · cases stopped
  · rename_i acceptedIdx counted
    split at ran
    · cases ran
      constructor
      · intro same; exact congrArg StateCache.stopsign same
      · intro same
        have kept : acceptedIdx = s.stateCache.acceptedIdx := by
          rw [same] at counted
          unfold StateCache.countStopsign at counted
          split at counted <;> simp_all
        rw [kept,same]
    · cases ran

-- An operation that returns an error leaves the cache as it was exactly when it
-- had nothing to lose.
theorem failed_cache_iff (s next : InternalStorage B T) (op : Operation T S) (fault : Fault)
    (ran : op.perform s = (.error fault,next)) (returned : fault ≠ .panic) :
    next.stateCache = s.stateCache ↔ s.Harmless op := by
  cases op with
  | appendEntriesAndGetAcceptedIdx entries => exact appendBatched_failed ran
  | flushBatch => exact flush_failed (dropResult_error.mp ran)
  | appendEntriesWithoutBatching entries => exact iff_of_true (append_failed (dropResult_error.mp ran)) trivial
  | syncLog acceptedRound decidedIdx logSync => exact syncLog_failed (dropResult_error.mp ran)
  | tryTrim idx => exact iff_of_true (tryTrim_failed ran) trivial
  | trySnapshot idx => exact iff_of_true (trySnapshot_failed ran) trivial
  | setPromise ballot =>
    have left : {s.stateCache with promise:=ballot} = next.stateCache :=
      congrArg (fun outcome => outcome.2.stateCache) ran
    rw [←left]
    exact ⟨congrArg StateCache.promise,fun (same : ballot = s.stateCache.promise) => by rw [same]⟩
  | setDecidedIdx idx =>
    have left : {s.stateCache with decidedIdx:=idx} = next.stateCache :=
      congrArg (fun outcome => outcome.2.stateCache) ran
    rw [←left]
    exact ⟨congrArg StateCache.decidedIdx,fun (same : idx = s.stateCache.decidedIdx) => by rw [same]⟩
  | setStopsign ss => exact setStopsign_failed (dropResult_error.mp ran) returned

end Failures

-- A back-end that reads as its memory does and refuses every write.
structure Refusing (T S : Type) where
  memory : MemoryStorage T S

def Refusing.refuse : StorageCall (Refusing T S) Unit := fun b => (.error .backend,b)

instance : Storage (Refusing T S) T S where
  writeAtomically _ := Refusing.refuse
  appendEntries _ := Refusing.refuse
  setPromise _ := Refusing.refuse
  setDecidedIdx _ := Refusing.refuse
  setStopsign _ := Refusing.refuse
  getEntries start stop b := b.memory.getEntries start stop
  getSuffix start b := b.memory.getSuffix start
  getLogLen b := .ok b.memory.log.length
  getPromise b := .ok b.memory.nProm
  getAcceptedRound b := .ok b.memory.accRound
  getDecidedIdx b := .ok b.memory.ld
  getCompactedIdx b := .ok b.memory.compactedIdx
  getStopsign b := .ok b.memory.stopsign
  getSnapshot b := .ok b.memory.snapshot

theorem refusing_atomic : Atomic (Refusing T S) := by
  constructor
  all_goals
    intro _ b next fault refused
    cases refused
    rfl

theorem failed_cache_iff_sample :
    (setDecidedIdx 0 (⟨⟨{}⟩,{batchSize:=1}⟩ : InternalStorage (Refusing Nat (List Nat)) Nat)).2.stateCache =
      ({batchSize:=1} : StateCache Nat) :=
  (failed_cache_iff (⟨⟨{}⟩,{batchSize:=1}⟩ : InternalStorage (Refusing Nat (List Nat)) Nat) _
    (.setDecidedIdx 0) .backend rfl (by decide)).mpr rfl

-- The decided index moves in the cache although the back-end refused it.
theorem refused_decided_index : ¬ ∀ (B T S : Type) [Storage B T S] [Snapshot T S], Atomic B →
    ∀ (s next : InternalStorage B T) (op : Operation T S) (fault : Fault),
      op.perform s = (.error fault,next) → fault ≠ .panic → next.stateCache = s.stateCache := by
  intro intact
  have same := intact (Refusing Nat (List Nat)) Nat (List Nat) refusing_atomic
    ⟨⟨{log:=[10]}⟩,{batchSize:=1,acceptedIdx:=1}⟩ _ (.setDecidedIdx 1) .backend rfl (by decide)
  cases congrArg StateCache.decidedIdx same

end InternalStorage
end OmniPaxosKV

import OmniPaxosKV.Coherence

namespace OmniPaxosKV

-- A snapshot made in two parts is the snapshot made at once.
def Snapshot.Lawful (T S : Type) [Snapshot T S] : Prop :=
  ∀ first later : List T, (Snapshot.create (first++later) : S) = Snapshot.merge (Snapshot.create first) (Snapshot.create later)

namespace InternalStorage
variable {T S : Type}

-- The stored entry at an index of the whole log.
def entryAt (s : OverMemory T S) (idx : Nat) : Option T :=
  if idx < s.storage.compactedIdx then none else s.storage.log[idx-s.storage.compactedIdx]?

theorem entryAt_above {s : OverMemory T S} (above : s.storage.compactedIdx ≤ idx) :
    s.entryAt idx = s.storage.log[idx-s.storage.compactedIdx]? := if_neg (Nat.not_lt.mpr above)

-- The entries an operation moves into the log.
def written (s : OverMemory T S) : Operation T S → List T
  | .appendEntriesAndGetAcceptedIdx entries => (s.stateCache.appendEntries entries).1.getD []
  | .flushBatch => s.stateCache.batchedEntries
  | .appendEntriesWithoutBatching entries => entries
  | _ => []

-- A storage beside every entry that ever reached its log.
structure Ledger (T S : Type) where
  store : OverMemory T S
  appended : List T := []

-- Failed calls are steps too: they leave what they leave.
def Ledger.step [Snapshot T S] (l : Ledger T S) (op : Operation T S) : Option (Ledger T S) :=
  some ⟨(op.perform l.store).2,l.appended++written l.store op⟩

-- The calls of a log that is only ever appended to, decided, stopped and compacted.
def Admissible (l : Ledger T S) : Operation T S → Prop
  | .appendEntriesAndGetAcceptedIdx _ => l.store.stateCache.stopsign = none
  | .flushBatch => l.store.stateCache.stopsign = none
  | .appendEntriesWithoutBatching _ => l.store.stateCache.stopsign = none
  | .setDecidedIdx idx => l.store.stateCache.decidedIdx ≤ idx ∧ idx ≤ l.store.stateCache.acceptedIdx
  | .setStopsign ss => ss.isSome
  | .tryTrim _ => True
  | .trySnapshot _ => True
  | .syncLog _ _ _ => False
  | .setPromise _ => False

-- What holds of the storage and its history together.
structure Kept (l : Ledger T S) : Prop where
  coherent : Coherent l.store
  within : l.store.stateCache.decidedIdx ≤ l.store.stateCache.acceptedIdx
  decided : l.store.storage.compactedIdx ≤ l.store.stateCache.decidedIdx
  stored : l.store.storage.compactedIdx ≤ l.appended.length
  log : l.store.storage.log = l.appended.drop l.store.storage.compactedIdx

theorem Kept.logEnd {l : Ledger T S} (kept : Kept l) : l.store.storage.logEnd = l.appended.length := by
  have stored := kept.stored
  rw [MemoryStorage.logEnd,kept.log,List.length_drop]
  omega

theorem Kept.accepted {l : Ledger T S} (kept : Kept l) :
    l.store.stateCache.acceptedIdx = l.appended.length+slots l.store.stateCache.stopsign := by
  have counted := kept.coherent.accepted
  rw [←kept.coherent.stopsign] at counted
  rw [counted,←kept.logEnd]
  rfl

theorem Kept.entryAt {l : Ledger T S} (kept : Kept l) (idx : Nat) :
    l.store.entryAt idx = if idx < l.store.storage.compactedIdx then none else l.appended[idx]? := by
  unfold InternalStorage.entryAt
  split
  · rfl
  · rw [kept.log,List.getElem?_drop]
    congr 1
    omega

theorem Kept.append {l : Ledger T S} (kept : Kept l) (entries : List T) :
    Kept ⟨⟨{l.store.storage with log:=l.store.storage.log++entries},
      {l.store.stateCache with acceptedIdx:=l.store.stateCache.acceptedIdx+entries.length}⟩,l.appended++entries⟩ := by
  refine ⟨kept.coherent.append entries rfl,?_,kept.decided,?_,?_⟩
  · exact Nat.le_trans kept.within (Nat.le_add_right _ _)
  · rw [List.length_append]
    exact Nat.le_trans kept.stored (Nat.le_add_right _ _)
  · rw [List.drop_append_of_le_length kept.stored,←kept.log]

theorem Kept.batch {l : Ledger T S} (kept : Kept l) (entries : List T) :
    Kept {l with store:={l.store with stateCache:={l.store.stateCache with batchedEntries:=entries}}} :=
  ⟨kept.coherent.batch entries,kept.within,kept.decided,kept.stored,kept.log⟩

-- A compaction that ends inside the decided entries keeps the whole history in view.
theorem Kept.compactTo {l : Ledger T S} (kept : Kept l) (coherent : Coherent next)
    (moved : next.storage.log = (l.store.storage.compactTo target).log) (index : next.storage.compactedIdx = target)
    (cache : next.stateCache = (l.store.afterCompaction target).stateCache)
    (ahead : l.store.stateCache.compactedIdx < target) (decided : target ≤ l.store.stateCache.decidedIdx)
    (short : target ≤ l.store.storage.logEnd) : Kept ⟨next,l.appended⟩ := by
  have compacted := kept.coherent.compacted
  have trimmed := kept.coherent.trimmed
  refine ⟨coherent,?_,?_,?_,?_⟩
  · rw [cache]; exact kept.within
  · rw [cache,index]; exact decided
  · rw [index,←kept.logEnd]; exact short
  · rw [moved,index]
    simp only [MemoryStorage.compactTo,kept.log,List.drop_drop]
    congr 1
    omega

theorem Kept.compactUpTo {l : Ledger T S} (kept : Kept l) (decided : target ≤ l.store.stateCache.decidedIdx)
    (short : target ≤ l.store.storage.logEnd) : Kept {l with store:=l.store.compactUpTo target} := by
  have coherent := compactUpTo_coherent kept.coherent short
  unfold InternalStorage.compactUpTo at coherent ⊢
  split
  · rename_i ahead
    simp only [ahead,if_true] at coherent
    exact kept.compactTo coherent rfl rfl rfl ahead decided short
  · exact kept

theorem Kept.appendBatched {l : Ledger T S} (kept : Kept l) (entries : List T) :
    Kept ⟨(dropResult (l.store.appendEntriesAndGetAcceptedIdx entries)).2,
      l.appended++(l.store.stateCache.appendEntries entries).1.getD []⟩ := by
  rcases appendBatched_cases l.store entries with ⟨none,grown⟩ | ⟨all,flushed⟩
  · rw [none,grown,Option.getD_none,List.append_nil]
    exact kept.batch _
  · rw [all,flushed,Option.getD_some]
    exact (kept.batch []).append _

section Steps
variable [Snapshot T S]

theorem Kept.snapshotUpTo {l : Ledger T S} (kept : Kept l) (decided : target ≤ l.store.stateCache.decidedIdx)
    (short : target ≤ l.store.storage.logEnd) : Kept {l with store:=l.store.snapshotUpTo target} := by
  have coherent := snapshotUpTo_coherent kept.coherent short
  unfold InternalStorage.snapshotUpTo at coherent ⊢
  split
  · rename_i ahead
    simp only [ahead,if_true] at coherent
    exact kept.compactTo coherent rfl rfl rfl ahead decided short
  · exact kept

theorem step_kept {l next : Ledger T S} (kept : Kept l) (admitted : Admissible l op)
    (ran : l.step op = some next) : Kept next := by
  cases Option.some.inj ran
  have within := kept.within
  cases op with
  | appendEntriesAndGetAcceptedIdx entries => exact kept.appendBatched entries
  | flushBatch => exact (kept.batch []).append _
  | appendEntriesWithoutBatching entries => exact kept.append entries
  | syncLog => exact absurd admitted not_false
  | setPromise => exact absurd admitted not_false
  | tryTrim idx =>
    simp only [Operation.perform,written,List.append_nil,kept.coherent.tryTrim_memory within]
    split
    · rename_i decided
      exact kept.compactUpTo (Nat.le_trans (Nat.min_le_left _ _) decided) (Nat.min_le_right _ _)
    · exact kept
  | trySnapshot idx =>
    simp only [Operation.perform,written,List.append_nil,kept.coherent.trySnapshot_memory within]
    split
    · rename_i decided
      exact kept.snapshotUpTo (Nat.le_trans (Nat.min_le_left _ _) decided) (Nat.min_le_right _ _)
    · exact kept
  | setDecidedIdx idx =>
    have valid := kept.coherent
    simp only [Operation.perform,written,List.append_nil]
    refine ⟨⟨valid.trimmed,valid.promise,valid.acceptedRound,rfl,valid.compacted,valid.stopsign,valid.accepted⟩,
      admitted.2,Nat.le_trans kept.decided admitted.1,kept.stored,kept.log⟩
  | setStopsign ss =>
    have valid := kept.coherent
    have stopped := valid.setStopsign_memory ss
    simp only at stopped
    simp only [Operation.perform,written,List.append_nil,dropResult,stopped]
    refine ⟨⟨valid.trimmed,valid.promise,valid.acceptedRound,valid.decided,valid.compacted,rfl,rfl⟩,
      ?_,kept.decided,kept.stored,kept.log⟩
    -- A stop-sign is never taken away, so the accepted index does not go back.
    have counted := kept.coherent.accepted
    have present : slots ss = 1 := if_pos admitted
    have single : slots l.store.storage.stopsign ≤ 1 := by unfold slots; split <;> omega
    simp only [present]
    omega

-- The stored snapshot is one of the whole compacted part.
def Summarised (l : Ledger T S) : Prop :=
  l.store.storage.snapshot =
    if l.store.storage.compactedIdx = 0 then none else some (Snapshot.create (l.appended.take l.store.storage.compactedIdx))

-- Carrying the stored snapshot on over entries is a snapshot of all of them.
theorem folded_over {l : Ledger T S} (summarised : Summarised l) (lawful : Snapshot.Lawful T S) (entries : List T) :
    l.store.storage.foldedOver entries = Snapshot.create (l.appended.take l.store.storage.compactedIdx++entries) := by
  unfold Summarised at summarised
  rw [MemoryStorage.foldedOver,summarised]
  by_cases fresh : l.store.storage.compactedIdx = 0
  · simp only [fresh,if_true,List.take_zero,List.nil_append]
  · simp only [fresh,if_false]
    exact (lawful _ _).symm

theorem Kept.folded {l : Ledger T S} (kept : Kept l) (summarised : Summarised l) (lawful : Snapshot.Lawful T S)
    (ahead : l.store.stateCache.compactedIdx ≤ target) :
    l.store.storage.foldedOver (l.store.storage.log.take (target-l.store.stateCache.compactedIdx)) =
      Snapshot.create (l.appended.take target) := by
  rw [kept.coherent.compacted] at ahead ⊢
  rw [folded_over summarised lawful,kept.log,←List.take_add,Nat.add_sub_cancel' ahead]

theorem step_summarised {l next : Ledger T S} (kept : Kept l) (summarised : Summarised l) (lawful : Snapshot.Lawful T S)
    (admitted : Admissible l op) (untrimmed : ∀ idx, op ≠ .tryTrim idx) (ran : l.step op = some next) :
    Summarised next := by
  -- What is appended later does not reach into the compacted part.
  have appending : ∀ entries, (l.appended++entries).take l.store.storage.compactedIdx =
      l.appended.take l.store.storage.compactedIdx := fun entries => List.take_append_of_le_length kept.stored
  have extended : ∀ entries (store : OverMemory T S), store.storage.snapshot = l.store.storage.snapshot →
      store.storage.compactedIdx = l.store.storage.compactedIdx → Summarised ⟨store,l.appended++entries⟩ := by
    intro entries store snapshot compacted
    simpa only [Summarised,snapshot,compacted,appending] using summarised
  cases Option.some.inj ran
  cases op with
  | appendEntriesAndGetAcceptedIdx entries =>
    rcases appendBatched_cases l.store entries with ⟨_,grown⟩ | ⟨_,flushed⟩
    · apply extended <;> simp only [Operation.perform,grown]
    · apply extended <;> simp only [Operation.perform,flushed] <;> rfl
  | flushBatch => exact extended _ _ rfl rfl
  | appendEntriesWithoutBatching entries => exact extended _ _ rfl rfl
  | syncLog => exact absurd admitted not_false
  | setPromise => exact absurd admitted not_false
  | setDecidedIdx idx => exact extended _ _ rfl rfl
  | setStopsign ss =>
    have stopped := kept.coherent.setStopsign_memory ss
    simp only at stopped
    apply extended <;> simp only [Operation.perform,dropResult,stopped]
  | tryTrim idx => exact absurd rfl (untrimmed idx)
  | trySnapshot idx =>
    simp only [Operation.perform,written,List.append_nil,kept.coherent.trySnapshot_memory kept.within]
    split
    · simp only [InternalStorage.snapshotUpTo]
      split
      · rename_i ahead
        have positive : min (idx.getD l.store.stateCache.decidedIdx) l.store.storage.logEnd ≠ 0 := by omega
        simp only [Summarised,MemoryStorage.compactTo,positive,if_false]
        rw [kept.folded summarised lawful (Nat.le_of_lt ahead)]
      · exact summarised
    · exact summarised

theorem start_kept (batchSize : Nat) (start : OverMemory T S) (opened : new {} batchSize = .ok start) :
    Kept ⟨start,[]⟩ ∧ Summarised (⟨start,[]⟩ : Ledger T S) := by
  cases opened
  exact ⟨⟨⟨rfl,rfl,rfl,rfl,rfl,rfl,rfl⟩,Nat.le_refl _,Nat.le_refl _,Nat.le_refl _,rfl⟩,rfl⟩

theorem run_kept {start final : Ledger T S} (path : Machine.Runs Ledger.step Admissible start ops final)
    (kept : Kept start) : Kept final :=
  path.invariant Kept (fun _ _ _ kept admitted ran => step_kept kept admitted ran) kept

theorem run_summarised {start final : Ledger T S} (path : Machine.Runs Ledger.step Admissible start ops final)
    (kept : Kept start) (summarised : Summarised start) (lawful : Snapshot.Lawful T S)
    (untrimmed : ∀ op ∈ ops, ∀ idx, op ≠ .tryTrim idx) : Summarised final := by
  induction path with
  | nil => exact summarised
  | snoc earlier admitted ran ih =>
    have before := ih (fun op member => untrimmed op (List.mem_append_left _ member))
    have last := untrimmed _ (List.mem_append_right _ List.mem_cons_self)
    exact step_summarised (run_kept earlier kept) before lawful admitted last ran

def Operation.compacts : Operation T S → Bool
  | .tryTrim _ => true
  | .trySnapshot _ => true
  | _ => false

-- The compacted part may have grown; nothing above it or beside it is different.
structure Shrinks (s next : OverMemory T S) : Prop where
  forward : s.stateCache.compactedIdx ≤ next.stateCache.compactedIdx
  accepted : next.stateCache.acceptedIdx = s.stateCache.acceptedIdx
  decided : next.stateCache.decidedIdx = s.stateCache.decidedIdx
  cachedStopsign : next.stateCache.stopsign = s.stateCache.stopsign
  stopsign : next.storage.stopsign = s.storage.stopsign
  entries : ∀ idx, next.stateCache.compactedIdx ≤ idx → next.entryAt idx = s.entryAt idx

-- What a call may do to the log it is made on.
structure KeepsMeaning (s : OverMemory T S) (op : Operation T S) : Prop where
  forward : s.stateCache.compactedIdx ≤ (op.perform s).2.stateCache.compactedIdx
  shrinks : op.compacts → Shrinks s (op.perform s).2
  refused : ∀ idx, s.stateCache.decidedIdx < idx → op = .tryTrim idx ∨ op = .trySnapshot (some idx) →
    op.perform s = (.error (.compaction (.undecidedIndex s.stateCache.decidedIdx)),s)
  returns : (op.perform s).1 ≠ .error .panic

omit [Snapshot T S] in
theorem Shrinks.same (s : OverMemory T S) : Shrinks s s :=
  ⟨Nat.le_refl _,rfl,rfl,rfl,rfl,fun _ _ => rfl⟩

omit [Snapshot T S] in
-- Dropping a part of the log shifts the stored entries and their index alike.
theorem compactTo_shrinks {s : OverMemory T S} (valid : Coherent s) (snapshot : Option S)
    (ahead : s.stateCache.compactedIdx < target) :
    Shrinks s ⟨{s.storage.compactTo target with snapshot:=snapshot},(s.afterCompaction target).stateCache⟩ := by
  refine ⟨Nat.le_of_lt ahead,rfl,rfl,rfl,rfl,fun idx above => ?_⟩
  have compacted := valid.compacted
  have trimmed := valid.trimmed
  simp only [afterCompaction] at above
  simp only [InternalStorage.entryAt,MemoryStorage.compactTo,List.getElem?_drop]
  rw [if_neg (by omega),if_neg (by omega)]
  congr 1
  omega

omit [Snapshot T S] in
theorem compactUpTo_shrinks {s : OverMemory T S} (valid : Coherent s) (target : Nat) : Shrinks s (s.compactUpTo target) := by
  unfold InternalStorage.compactUpTo
  split
  · rename_i ahead
    exact compactTo_shrinks valid s.storage.snapshot ahead
  · exact .same s

theorem snapshotUpTo_shrinks {s : OverMemory T S} (valid : Coherent s) (target : Nat) : Shrinks s (s.snapshotUpTo target) := by
  unfold InternalStorage.snapshotUpTo
  split
  · rename_i ahead
    exact compactTo_shrinks valid _ ahead
  · exact .same s

-- Both kinds of compaction go ahead or are refused, and refuse exactly what is undecided.
theorem compaction_keeps {s next : OverMemory T S} (op : Operation T S) (asked : Nat) (shrinks : Shrinks s next)
    (outcome : op.perform s = if asked ≤ s.stateCache.decidedIdx then (.ok (),next)
      else (.error (.compaction (.undecidedIndex s.stateCache.decidedIdx)),s))
    (index : ∀ idx, op = .tryTrim idx ∨ op = .trySnapshot (some idx) → asked = idx) : KeepsMeaning s op := by
  by_cases decided : asked ≤ s.stateCache.decidedIdx
  · rw [if_pos decided] at outcome
    refine ⟨?_,fun _ => ?_,fun idx above call => ?_,?_⟩
    · rw [outcome]; exact shrinks.forward
    · rw [outcome]; exact shrinks
    · have same := index idx call
      omega
    · rw [outcome]; simp
  · rw [if_neg decided] at outcome
    refine ⟨?_,fun _ => ?_,fun _ _ _ => outcome,?_⟩
    · rw [outcome]
    · rw [outcome]; exact .same s
    · rw [outcome]; simp

theorem call_keeps {l : Ledger T S} (kept : Kept l) (admitted : Admissible l op) : KeepsMeaning l.store op := by
  -- A call that is no compaction only has to return and leave the compacted index alone.
  have other : op.compacts = false → (op.perform l.store).2.stateCache.compactedIdx = l.store.stateCache.compactedIdx →
      (op.perform l.store).1 = .ok () → KeepsMeaning l.store op := by
    intro plain index result
    refine ⟨Nat.le_of_eq index.symm,fun compacts => ?_,?_,by simp [result]⟩
    · rw [plain] at compacts; cases compacts
    · rintro idx _ (rfl | rfl) <;> cases plain
  have within := kept.within
  cases op with
  | appendEntriesAndGetAcceptedIdx entries =>
    rcases appendBatched_cases l.store entries with ⟨_,grown⟩ | ⟨_,flushed⟩
    · apply other rfl <;> simp only [Operation.perform,grown]
    · apply other rfl <;> simp only [Operation.perform,flushed] <;> rfl
  | flushBatch => exact other rfl rfl rfl
  | appendEntriesWithoutBatching entries => exact other rfl rfl rfl
  | syncLog => exact absurd admitted not_false
  | setPromise => exact absurd admitted not_false
  | setDecidedIdx idx => exact other rfl rfl rfl
  | setStopsign ss =>
    have stopped := kept.coherent.setStopsign_memory ss
    simp only at stopped
    apply other rfl <;> simp only [Operation.perform,dropResult,stopped]
    rfl
  | tryTrim idx =>
    refine compaction_keeps (.tryTrim idx) idx (compactUpTo_shrinks kept.coherent _)
      (kept.coherent.tryTrim_memory within idx) ?_
    rintro other (same | same) <;> cases same
    rfl
  | trySnapshot idx =>
    refine compaction_keeps (.trySnapshot idx) _ (snapshotUpTo_shrinks kept.coherent _)
      (kept.coherent.trySnapshot_memory within idx) ?_
    rintro other (same | same) <;> cases same
    rfl

-- In every run from an empty storage: the compacted part grows inside the decided
-- entries, each call keeps the meaning of the rest, and as long as nothing was
-- trimmed the stored snapshot is one of everything compacted so far.
theorem compaction_keeps_meaning (batchSize : Nat) (start : OverMemory T S) (opened : new {} batchSize = .ok start)
    (ops : List (Operation T S)) (final : Ledger T S) (path : Machine.Runs Ledger.step Admissible ⟨start,[]⟩ ops final) :
    (∃ decided, final.store.getDecidedIdxWithoutStopsign = .ok decided ∧ final.store.stateCache.compactedIdx ≤ decided) ∧
    (∀ op, Admissible final op → KeepsMeaning final.store op) ∧
    (Snapshot.Lawful T S → (∀ op ∈ ops, ∀ idx, op ≠ .tryTrim idx) →
      final.store.storage.snapshot = if final.store.stateCache.compactedIdx = 0 then none
        else some (Snapshot.create (final.appended.take final.store.stateCache.compactedIdx))) := by
  obtain ⟨kept,summarised⟩ := start_kept batchSize start opened
  have last := run_kept path kept
  refine ⟨⟨_,last.coherent.decided_entries last.within,?_⟩,fun op admitted => call_keeps last admitted,fun lawful untrimmed => ?_⟩
  · have decided := last.decided
    have stored := last.stored
    rw [last.coherent.compacted,last.logEnd]
    omega
  · rw [last.coherent.compacted]
    exact run_summarised path kept summarised lawful untrimmed

end Steps

instance (l : Ledger T S) (op : Operation T S) : Decidable (Admissible l op) :=
  match op with
  | .appendEntriesAndGetAcceptedIdx _ => inferInstanceAs (Decidable (_ = _))
  | .flushBatch => inferInstanceAs (Decidable (_ = _))
  | .appendEntriesWithoutBatching _ => inferInstanceAs (Decidable (_ = _))
  | .setDecidedIdx _ => inferInstanceAs (Decidable (_ ∧ _))
  | .setStopsign ss => inferInstanceAs (Decidable (ss.isSome = true))
  | .tryTrim _ => .isTrue trivial
  | .trySnapshot _ => .isTrue trivial
  | .syncLog _ _ _ => .isFalse not_false
  | .setPromise _ => .isFalse not_false

def sampleCompactions : List (Operation Nat (List Nat)) :=
  [.appendEntriesAndGetAcceptedIdx [10,11],.appendEntriesWithoutBatching [12],.setDecidedIdx 1,.trySnapshot (some 7),
    .trySnapshot none,.setStopsign (some sampleStopsign),.setDecidedIdx 4,.trySnapshot (some 4)]

theorem compaction_keeps_meaning_sample : ∃ final : Ledger Nat (List Nat),
    final.store.stateCache.compactedIdx = 3 ∧ KeepsMeaning final.store (.tryTrim 9) ∧
      final.store.storage.snapshot = some [10,11,12] := by
  obtain ⟨final,path,compacted,appended⟩ := Machine.run_reaches (Ledger.step (T:=Nat) (S:=List Nat)) Admissible
    (fun l => l.store.stateCache.compactedIdx = 3 ∧ l.appended = [10,11,12])
    ⟨⟨{},{batchSize:=1}⟩,[]⟩ sampleCompactions (by decide +kernel)
  obtain ⟨_,keeps,snapshot⟩ := compaction_keeps_meaning 1 _ rfl sampleCompactions final path
  refine ⟨final,compacted,keeps (.tryTrim 9) trivial,?_⟩
  have untrimmed : ∀ op ∈ sampleCompactions, ∀ idx, op ≠ .tryTrim idx := by simp [sampleCompactions]
  have summary := snapshot (fun _ _ => rfl) untrimmed
  rw [compacted,appended] at summary
  exact summary

end InternalStorage
end OmniPaxosKV

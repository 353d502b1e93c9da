import OmniPaxosKV.Compaction

namespace OmniPaxosKV
open InternalStorage

-- A log with its whole history: what is compacted and decided of it lies inside it.
structure Replica (T : Type) where
  entries : List T
  compacted : Nat
  decided : Nat
  stopsign : Option StopSign := none
  promise : Option Ballot := none
  acceptedRound : Option Ballot := none
  batchSize : Nat := 1
  batchedEntries : List T := []
  stored : compacted ≤ entries.length
  settled : compacted ≤ decided
  within : decided ≤ entries.length+slots stopsign

namespace Replica
variable {T S : Type}

def accepted (r : Replica T) : Nat := r.entries.length+slots r.stopsign

-- Every index of the log with what it holds: the entries, then the stop-sign.
def indices (r : Replica T) : List (T ⊕ StopSign) := r.entries.map .inl++r.stopsign.toList.map .inr

-- Both logs reach index `p` and hold the same before it.
def Agree (p : Nat) (leader follower : Replica T) : Prop :=
  p ≤ leader.accepted ∧ p ≤ follower.accepted ∧ ∀ idx < p, leader.indices[idx]? = follower.indices[idx]?

theorem indices_entry (r : Replica T) (inside : idx < r.entries.length) :
    r.indices[idx]? = r.entries[idx]?.map .inl := by
  rw [indices,List.getElem?_append_left (by simpa using inside),List.getElem?_map]

theorem indices_past (r : Replica T) (past : r.entries.length ≤ idx) : r.indices[idx]? ≠ some (.inl entry) := by
  intro found
  rw [indices,List.getElem?_append_right (by simpa using past),List.getElem?_map] at found
  obtain ⟨ss,_,same⟩ := Option.map_eq_some_iff.mp found
  cases same

-- As far as the leader's common part is entries, so is the follower's.
theorem Agree.entries {leader follower : Replica T} (agree : Agree p leader follower) (common : count ≤ p)
    (inside : count ≤ leader.entries.length) :
    count ≤ follower.entries.length ∧ leader.entries.take count = follower.entries.take count := by
  have reached : count ≤ follower.entries.length := by
    by_contra short
    have at_end := agree.2.2 follower.entries.length (by omega)
    rw [leader.indices_entry (by omega),List.getElem?_eq_getElem (by omega)] at at_end
    exact follower.indices_past (Nat.le_refl _) at_end.symm
  refine ⟨reached,List.ext_getElem? fun idx => ?_⟩
  rcases Nat.lt_or_ge idx count with before | past
  · have same := agree.2.2 idx (by omega)
    rw [leader.indices_entry (by omega),follower.indices_entry (by omega)] at same
    rw [List.getElem?_take_of_lt before,List.getElem?_take_of_lt before]
    exact Option.map_injective Sum.inl_injective same
  · rw [List.getElem?_take_eq_none past,List.getElem?_take_eq_none past]

section Store
variable [Snapshot T S]

-- The storage that keeps such a log: the compacted part only as a snapshot.
def store (S : Type) [Snapshot T S] (r : Replica T) : OverMemory T S where
  storage :=
    { log:=r.entries.drop r.compacted
      nProm:=r.promise
      accRound:=r.acceptedRound
      ld:=r.decided
      trimmedIdx:=r.compacted
      compactedIdx:=r.compacted
      snapshot:=if r.compacted = 0 then none else some (Snapshot.create (r.entries.take r.compacted))
      stopsign:=r.stopsign }
  stateCache :=
    { batchSize:=r.batchSize
      batchedEntries:=r.batchedEntries
      promise:=r.promise.getD {}
      acceptedRound:=r.acceptedRound.getD {}
      decidedIdx:=r.decided
      acceptedIdx:=r.accepted
      compactedIdx:=r.compacted
      stopsign:=r.stopsign }

def ledger (S : Type) [Snapshot T S] (r : Replica T) : Ledger T S := ⟨r.store S,r.entries⟩

theorem kept (r : Replica T) : Kept (r.ledger S) := by
  have stored := r.stored
  refine ⟨⟨rfl,rfl,rfl,rfl,rfl,rfl,?_⟩,r.within,r.settled,stored,rfl⟩
  simp only [ledger,store,accepted,List.length_drop]
  omega

theorem summarised (r : Replica T) : Summarised (r.ledger S) := rfl

-- Every storage with its snapshot in order is of this kind.
theorem of_kept (l : Ledger T S) (kept : Kept l) (summarised : Summarised l) :
    ∃ r : Replica T, r.ledger S = l := by
  have accepted := kept.accepted
  obtain ⟨⟨trimmed,promise,acceptedRound,decided,compacted,stopsign,_⟩,within,settled,stored,log⟩ := kept
  obtain ⟨⟨⟨log',nProm,accRound,ld,trimmedIdx,compactedIdx,snapshot,ss⟩,cache⟩,appended⟩ := l
  obtain ⟨batchSize,batchedEntries,promise',acceptedRound',decidedIdx,acceptedIdx,compactedIdx',ss'⟩ := cache
  simp only [Summarised] at trimmed promise acceptedRound decided compacted stopsign within settled stored log accepted summarised
  subst trimmed promise acceptedRound decided compacted stopsign log accepted summarised
  exact ⟨⟨appended,_,_,_,nProm,accRound,batchSize,batchedEntries,stored,settled,within⟩,rfl⟩

-- The leader's decided entries: its decided index without the stop-sign.
def decidedEntries (r : Replica T) : Nat := min r.decided r.entries.length

theorem store_logEnd (r : Replica T) : (r.store S).storage.logEnd = r.entries.length := (r.kept (S:=S)).logEnd

theorem getDecided (r : Replica T) : (r.store S).getDecidedIdxWithoutStopsign = .ok r.decidedEntries := by
  have found := (r.kept (S:=S)).coherent.decided_entries (r.kept (S:=S)).within
  rw [show (r.ledger S).store.storage.logEnd = r.entries.length from r.store_logEnd] at found
  exact found

theorem createSnapshot_store (r : Replica T) (lawful : Snapshot.Lawful T S) (ahead : r.compacted ≤ idx)
    (short : idx ≤ r.entries.length) :
    (r.store S).createSnapshot idx = .ok (Snapshot.create (r.entries.take idx)) := by
  have kept := r.kept (S:=S)
  have made := kept.coherent.createSnapshot_memory ahead (by rw [kept.logEnd]; exact short)
  rw [kept.folded r.summarised lawful ahead] at made
  exact made

theorem getSuffix_store (r : Replica T) (ahead : r.compacted ≤ idx) :
    (r.store S).storage.getSuffix idx = .ok (r.entries.drop idx) := by
  rw [MemoryStorage.getSuffix_ok (r.store S).storage ahead]
  simp only [store,List.drop_drop,Nat.add_sub_cancel' ahead]

theorem getEntries_store (r : Replica T) (ahead : r.compacted ≤ start) (ordered : start ≤ stop)
    (short : stop ≤ r.entries.length) :
    (r.store S).storage.getEntries start stop = .ok ((r.entries.take stop).drop start) := by
  have stored := r.stored
  rw [MemoryStorage.getEntries_ok (r.store S).storage ahead (Nat.le_trans ahead ordered),if_pos (by
    simp only [store,List.length_drop]
    omega)]
  simp only [store,←List.drop_take,List.drop_drop]
  congr 2
  omega

-- A log that needs no snapshot is sent as the entries after the common part.
theorem createLogSync_plain (r : Replica T) (plain : ¬(Snapshot.useSnapshots S = true ∧ p < r.decided))
    (ahead : r.compacted ≤ p) (other : Nat) :
    (r.store S).createLogSync p other = .ok ⟨none,r.entries.drop p,p,r.stopsign⟩ := by
  have cached : (r.store S).stateCache.decidedIdx = r.decided := rfl
  rw [createLogSync,cached,if_neg plain]
  simp only [Storage.getSuffix,r.getSuffix_store ahead,expectRead]
  rfl

-- What is decided past the stored entries is the stop-sign, which no suffix holds.
theorem drop_decided (r : Replica T) : r.entries.drop r.decided = r.entries.drop r.decidedEntries := by
  rcases Nat.le_total r.decided r.entries.length with inside | past
  · rw [decidedEntries,Nat.min_eq_left inside]
  · rw [decidedEntries,Nat.min_eq_right past,List.drop_of_length_le past,List.drop_length]

theorem createLogSync_snapshot (r : Replica T) (used : Snapshot.useSnapshots S = true) (behind : p < r.decided)
    (made : (r.store S).createDiffSnapshot other = .ok (snapshot,r.decidedEntries)) :
    (r.store S).createLogSync p other = .ok ⟨snapshot,r.entries.drop r.decidedEntries,r.decidedEntries,r.stopsign⟩ := by
  have suffix : Storage.getSuffix r.decided (r.store S).storage = .ok (r.entries.drop r.decidedEntries) := by
    rw [←r.drop_decided]
    exact r.getSuffix_store r.settled
  have cached : (r.store S).stateCache.decidedIdx = r.decided := rfl
  rw [createLogSync,cached,if_pos ⟨used,behind⟩,made,suffix]
  rfl

-- The follower lacks compacted entries: it gets a snapshot of everything decided,
-- unless nothing but a stop-sign is.
theorem createDiff_complete (r : Replica T) (lawful : Snapshot.Lawful T S) (lacks : other ≤ r.compacted) :
    (r.store S).createDiffSnapshot other = .ok
      (if r.decidedEntries = 0 then none else some (.complete (Snapshot.create (r.entries.take r.decidedEntries))),
        r.decidedEntries) := by
  have stored := r.stored
  have settled := r.settled
  have ahead : r.compacted ≤ r.decidedEntries := by unfold decidedEntries; omega
  have cached : (r.store S).stateCache.compactedIdx = r.compacted := rfl
  rw [createDiffSnapshot,r.getDecided]
  simp only [bind,Except.bind,pure,Except.pure,cached,lacks,if_true]
  split
  · rename_i more
    rw [r.createSnapshot_store lawful ahead (Nat.min_le_right _ _)]
    simp only [show r.decidedEntries ≠ 0 by omega,if_false]
  · rename_i all
    have whole : r.compacted = r.decidedEntries := by omega
    simp only [Storage.getSnapshot,store,whole]
    split <;> rfl

theorem createDiff_delta (r : Replica T) (has : r.compacted < other) (short : other ≤ r.decidedEntries) :
    (r.store S).createDiffSnapshot other = .ok
      (some (.delta (Snapshot.create ((r.entries.take r.decidedEntries).drop other))),r.decidedEntries) := by
  have cached : (r.store S).stateCache.compactedIdx = r.compacted := rfl
  rw [createDiffSnapshot,r.getDecided]
  simp only [bind,Except.bind,pure,Except.pure,cached,Nat.not_le.mpr has,if_false,Storage.getEntries,
    r.getEntries_store (Nat.le_of_lt has) short (Nat.min_le_right _ _)]

-- The index up to which a follower takes its own log for decided once the
-- leader's decided index is in its cache.
def ownIndex (r : Replica T) (decided : Nat) : Nat :=
  if r.stopsign.isSome ∧ decided = r.accepted then decided-1 else decided

-- How many of its own entries the snapshot made then covers.
def carried (r : Replica T) (decided : Nat) : Nat :=
  if r.ownIndex decided ≤ r.entries.length then r.ownIndex decided else r.compacted

omit [Snapshot T S] in
theorem carried_inside (r : Replica T) (decided : Nat) : r.carried decided ≤ r.entries.length := by
  unfold carried
  split
  · assumption
  · exact r.stored

theorem createDecided_started (r : Replica T) (lawful : Snapshot.Lawful T S) (round : Ballot)
    (limit : Nat) (positive : 0 < limit)
    (ahead : r.compacted ≤ r.ownIndex limit) :
    (syncStart round limit (r.store S)).createDecidedSnapshot =
      .ok (Snapshot.create (r.entries.take (r.carried limit))) := by
  have index : (syncStart round limit (r.store S)).getDecidedIdxWithoutStopsign = .ok (r.ownIndex limit) := by
    simp only [getDecidedIdxWithoutStopsign,StateCache.stopsignIsDecided,syncStart,store,ownIndex,checkedSub,
      Bool.and_eq_true,beq_iff_eq]
    split
    · exact if_pos positive
    · rfl
  have covers : r.entries.take r.compacted++
      (if r.ownIndex limit ≤ r.entries.length then (r.entries.drop r.compacted).take (r.ownIndex limit-r.compacted) else []) =
      r.entries.take (r.carried limit) := by
    unfold carried
    split
    · rw [←List.take_add,Nat.add_sub_cancel' ahead]
    · rw [List.append_nil]
  have made : (syncStart round limit (r.store S)).createSnapshot (r.ownIndex limit) =
      .ok (Snapshot.create (r.entries.take (r.carried limit))) := by
    have aligned := createSnapshot_aligned (s:=syncStart round limit (r.store S)) rfl rfl ahead
    have storage : (syncStart round limit (r.store S)).storage = (r.ledger S).store.storage := rfl
    rw [storage,folded_over r.summarised lawful,(r.kept (S:=S)).logEnd] at aligned
    rw [←covers]
    exact aligned
  simp only [createDecidedSnapshot,index,bind,Except.bind,made]

-- A follower in line with the leader: its indices and stop-sign, its entries as
-- far as they are stored, and a snapshot of the rest.
structure InLine (leader : Replica T) (next : OverMemory T S) : Prop where
  accepted : next.stateCache.acceptedIdx = leader.accepted
  decided : next.stateCache.decidedIdx = leader.decided
  stopsign : next.stateCache.stopsign = leader.stopsign
  storedStopsign : next.storage.stopsign = leader.stopsign
  entries : ∀ idx, next.stateCache.compactedIdx ≤ idx → next.entryAt idx = leader.entries[idx]?
  snapshot : 0 < next.stateCache.compactedIdx →
    next.storage.snapshot = some (Snapshot.create (leader.entries.take next.stateCache.compactedIdx))

-- The leader makes its message and the follower takes it in.
def SyncsWith (S : Type) [Snapshot T S] (round : Ballot) (p : Nat) (leader follower : Replica T) : Prop :=
  ∃ sync accepted next, (leader.store S).createLogSync p follower.decided = .ok sync ∧
    (follower.store S).syncLog round leader.decided (some sync) = (.ok accepted,next) ∧ InLine leader next

theorem syncsWith_iff {leader follower : Replica T} (round : Ballot) (sync : LogSync T S) (snapshot : Option S)
    (sent : (leader.store S).createLogSync p follower.decided = .ok sync) (ahead : follower.compacted ≤ sync.syncIdx)
    (built : (syncStart round leader.decided (follower.store S)).syncSnapshot sync = .ok snapshot) :
    SyncsWith S round p leader follower ↔ InLine leader
      ⟨syncStorage round leader.decided sync snapshot (follower.store S).storage,
        syncCache (syncStart round leader.decided (follower.store S)).stateCache sync snapshot⟩ := by
  have ran := syncLog_memory (follower.store S) round leader.decided sync snapshot ahead rfl built
  constructor
  · rintro ⟨other,accepted,next,made,took,inLine⟩
    rw [sent] at made
    cases made
    rw [ran] at took
    cases took
    exact inLine
  · exact fun inLine => ⟨sync,_,_,sent,ran,inLine⟩

-- The follower keeps its compacted part and takes the leader's entries after it.
theorem inLine_plain (leader follower : Replica T) (round : Ballot) (ahead : follower.compacted ≤ idx)
    (within : idx ≤ leader.entries.length) (same : leader.entries.take idx = follower.entries.take idx) :
    let sync : LogSync T S := ⟨none,leader.entries.drop idx,idx,leader.stopsign⟩
    InLine leader ⟨syncStorage round leader.decided sync none (follower.store S).storage,
      syncCache (syncStart round leader.decided (follower.store S)).stateCache sync none⟩ := by
  have log : (follower.entries.drop follower.compacted).take (idx-follower.compacted)++leader.entries.drop idx =
      leader.entries.drop follower.compacted := by
    have short : follower.compacted ≤ (leader.entries.take idx).length := by rw [List.length_take]; omega
    rw [←List.drop_take,←same,←List.drop_append_of_le_length short,List.take_append_drop]
  have compacted : leader.entries.take follower.compacted = follower.entries.take follower.compacted := by
    have cut := congrArg (List.take follower.compacted) same
    rwa [List.take_take,List.take_take,Nat.min_eq_left ahead] at cut
  refine ⟨?_,rfl,rfl,rfl,fun other above => ?_,fun positive => ?_⟩
  · change idx+(leader.entries.drop idx).length+slots leader.stopsign = leader.accepted
    rw [accepted,List.length_drop]
    omega
  · have above : follower.compacted ≤ other := above
    refine (entryAt_above above).trans ?_
    simp only [syncStorage,store]
    rw [log,List.getElem?_drop,Nat.add_sub_cancel' above]
  · have positive : follower.compacted ≠ 0 := Nat.ne_of_gt positive
    simp only [syncStorage,syncCache,syncStart,store,positive,if_false,Option.isSome_none,Bool.false_eq_true,compacted]

theorem inLine_snapshot (leader follower : Replica T) (round : Ballot) (kind : Option (SnapshotType S)) (snapshot : S)
    (within : idx ≤ leader.entries.length) :
    let sync : LogSync T S := ⟨kind,leader.entries.drop idx,idx,leader.stopsign⟩
    InLine leader ⟨syncStorage round leader.decided sync (some snapshot) (follower.store S).storage,
      syncCache (syncStart round leader.decided (follower.store S)).stateCache sync (some snapshot)⟩ ↔
    (0 < idx → snapshot = Snapshot.create (leader.entries.take idx)) := by
  constructor
  · intro inLine positive
    exact Option.some.inj (inLine.snapshot positive)
  · intro whole
    refine ⟨?_,rfl,rfl,rfl,fun other above => ?_,fun positive => congrArg some (whole positive)⟩
    · change idx+(leader.entries.drop idx).length+slots leader.stopsign = leader.accepted
      rw [accepted,List.length_drop]
      omega
    · have above : idx ≤ other := above
      refine (entryAt_above above).trans ?_
      simp only [syncStorage]
      rw [List.getElem?_drop,Nat.add_sub_cancel' above]

theorem syncSnapshot_delta {leader follower : Replica T} (lawful : Snapshot.Lawful T S) (round : Ballot)
    (positive : 0 < leader.decided) (ahead : follower.compacted ≤ follower.ownIndex leader.decided)
    (entries suffix : List T) :
    (syncStart round leader.decided (follower.store S)).syncSnapshot
        ⟨some (.delta (Snapshot.create entries)),suffix,idx,leader.stopsign⟩ =
      .ok (some (Snapshot.create (follower.entries.take (follower.carried leader.decided)++entries))) := by
  simp only [syncSnapshot,follower.createDecided_started lawful round leader.decided positive ahead,bind,Except.bind,
    pure,Except.pure]
  rw [lawful]

-- What the two sides know of each other before the sync.
structure Prepared (use : Bool) (p : Nat) (leader follower : Replica T) : Prop where
  agree : Agree p leader follower
  common : follower.decided ≤ p
  behind : follower.decided ≤ leader.decided
  kept : use = false → leader.compacted ≤ p

-- When the sync comes out right. Without a snapshot: the common part is entries
-- only. With one: it is a complete one, or the follower's own snapshot covers
-- exactly what the follower has decided.
def Syncable (use : Bool) (p : Nat) (leader follower : Replica T) : Prop :=
  if use = true ∧ p < leader.decided then
    follower.decided ≤ leader.compacted ∨ follower.carried leader.decided = follower.decided
  else p ≤ leader.entries.length

theorem plain_iff {leader follower : Replica T} (prepared : Prepared use p leader follower)
    (used : Snapshot.useSnapshots S = use) (plain : ¬(use = true ∧ p < leader.decided)) (round : Ballot) :
    SyncsWith S round p leader follower ↔ p ≤ leader.entries.length := by
  have ahead : leader.compacted ≤ p := by
    cases use with
    | false => exact prepared.kept rfl
    | true =>
      have := leader.settled
      have : ¬ p < leader.decided := fun behind => plain ⟨rfl,behind⟩
      omega
  have reached : follower.compacted ≤ p := Nat.le_trans follower.settled prepared.common
  have sent := leader.createLogSync_plain (by rw [used]; exact plain) ahead follower.decided
  rw [syncsWith_iff round _ none sent reached rfl]
  constructor
  · intro inLine
    have counted : p+(leader.entries.drop p).length+slots leader.stopsign = leader.accepted := inLine.accepted
    rw [accepted,List.length_drop] at counted
    omega
  · intro within
    exact inLine_plain leader follower round reached within (prepared.agree.entries (Nat.le_refl _) within).2

-- Where the follower's decided index stands when the leader has decided more
-- than the common part.
theorem Prepared.bounds {leader follower : Replica T} (prepared : Prepared use p leader follower)
    (more : p < leader.decided) :
    follower.decided ≤ leader.decidedEntries ∧ follower.compacted ≤ follower.ownIndex leader.decided := by
  have common := prepared.common
  have settled := follower.settled
  have within := leader.within
  have single : slots leader.stopsign ≤ 1 := by unfold slots; split <;> omega
  constructor
  · unfold decidedEntries
    omega
  · unfold ownIndex
    split <;> omega

theorem complete_syncs {leader follower : Replica T} (prepared : Prepared true p leader follower)
    (lawful : Snapshot.Lawful T S) (used : Snapshot.useSnapshots S = true) (more : p < leader.decided)
    (lacks : follower.decided ≤ leader.compacted) (round : Ballot) : SyncsWith S round p leader follower := by
  have sent := leader.createLogSync_snapshot used more (leader.createDiff_complete lawful lacks)
  obtain ⟨reached,_⟩ := prepared.bounds more
  have ahead : follower.compacted ≤ leader.decidedEntries := Nat.le_trans follower.settled reached
  by_cases bare : leader.decidedEntries = 0
  -- Only a stop-sign is decided: there is no snapshot, and nothing to keep either.
  · simp only [bare,if_true] at sent
    rw [syncsWith_iff round _ none sent (by omega) rfl]
    exact inLine_plain leader follower round (by omega) (Nat.zero_le _) rfl
  · simp only [bare,if_false] at sent
    rw [syncsWith_iff round _ (some (Snapshot.create (leader.entries.take leader.decidedEntries))) sent ahead rfl]
    exact (inLine_snapshot leader follower round _ _ (Nat.min_le_right _ _)).mpr fun _ => rfl

theorem delta_iff {leader follower : Replica T} (prepared : Prepared true p leader follower)
    (lawful : Snapshot.Lawful T S) (used : Snapshot.useSnapshots S = true) (more : p < leader.decided)
    (has : leader.compacted < follower.decided) (round : Ballot) :
    SyncsWith S round p leader follower ↔
      (Snapshot.create (follower.entries.take (follower.carried leader.decided)++
        (leader.entries.take leader.decidedEntries).drop follower.decided) : S) =
      Snapshot.create (leader.entries.take leader.decidedEntries) := by
  obtain ⟨reached,own⟩ := prepared.bounds more
  have sent := leader.createLogSync_snapshot used more (leader.createDiff_delta has reached)
  have ahead : follower.compacted ≤ leader.decidedEntries := Nat.le_trans follower.settled reached
  rw [syncsWith_iff round _ _ sent ahead (syncSnapshot_delta lawful round (by omega) own _ _)]
  have positive : 0 < leader.decidedEntries := by omega
  refine (inLine_snapshot leader follower round _ _ (Nat.min_le_right _ _)).trans ?_
  exact ⟨fun whole => whole positive,fun whole _ => whole⟩

end Store

-- A snapshot that keeps every entry, in use or not.
@[reducible] def wholeLogAs (use : Bool) : Snapshot T (List T) where
  create entries := entries
  merge snapshot delta := snapshot++delta
  useSnapshots := use

-- The message a leader makes and the follower's way of taking it in bring the
-- two logs in line, whatever snapshots are, exactly in the cases above.
theorem log_sync_iff (use : Bool) (round : Ballot) (p : Nat) (leader follower : Replica T)
    (prepared : Prepared use p leader follower) :
    (∀ (S : Type) [Snapshot T S], Snapshot.Lawful T S → Snapshot.useSnapshots S = use →
      SyncsWith S round p leader follower) ↔ Syncable use p leader follower := by
  unfold Syncable
  by_cases snapshots : use = true ∧ p < leader.decided
  · rw [if_pos snapshots]
    obtain ⟨rfl,more⟩ := snapshots
    rcases Nat.lt_or_ge leader.compacted follower.decided with has | lacks
    · have reached := (prepared.bounds more).1
      have common := prepared.agree.entries prepared.common (Nat.le_trans reached (Nat.min_le_right _ _))
      constructor
      · intro syncs
        let whole := wholeLogAs (T:=T) true
        have same : follower.entries.take (follower.carried leader.decided)++
            (leader.entries.take leader.decidedEntries).drop follower.decided =
            leader.entries.take leader.decidedEntries := (delta_iff (S:=List T) prepared (fun _ _ => rfl) rfl more has round).mp (syncs _ (fun _ _ => rfl) rfl)
        have lengths := congrArg List.length same
        have inside := follower.carried_inside leader.decided
        have short : leader.decidedEntries ≤ leader.entries.length := Nat.min_le_right _ _
        simp only [List.length_append,List.length_take,List.length_drop] at lengths
        right
        omega
      · rintro (lacks | exact_) S inst lawful used
        · omega
        · rw [delta_iff prepared lawful used more has round,exact_,←common.2]
          have cut : leader.entries.take follower.decided =
              (leader.entries.take leader.decidedEntries).take follower.decided := by
            rw [List.take_take,Nat.min_eq_left reached]
          rw [cut,List.take_append_drop]
    · exact iff_of_true (fun S inst lawful used => complete_syncs prepared lawful used more lacks round) (.inl lacks)
  · rw [if_neg snapshots]
    constructor
    · intro syncs
      let whole := wholeLogAs (T:=T) use
      exact (plain_iff (S:=List T) prepared rfl snapshots round).mp (syncs _ (fun _ _ => rfl) rfl)
    · intro within S inst lawful used
      exact (plain_iff prepared used snapshots round).mpr within

-- The leader has decided three entries; the follower has the first of them.
def aheadLog (compacted : Nat) (short : compacted ≤ 3) : Replica Nat where
  entries := [1,2,3]
  compacted := compacted
  decided := 3
  stored := short
  settled := short
  within := Nat.le_refl _

def behindLog : Replica Nat where
  entries := [1]
  compacted := 0
  decided := 1
  stored := Nat.zero_le _
  settled := Nat.zero_le _
  within := Nat.le_refl _

theorem behind_prepared (compacted : Nat) (short : compacted ≤ 3) : Prepared true 1 (aheadLog compacted short) behindLog where
  agree := ⟨by simp [aheadLog,accepted,slots],by simp [behindLog,accepted],fun idx first => by
    cases Nat.lt_one_iff.mp first
    rfl⟩
  common := Nat.le_refl _
  behind := by simp [aheadLog,behindLog]
  kept := fun unused => nomatch unused

theorem log_sync_iff_sample : SyncsWith (List Nat) {} 1 (aheadLog 2 (by decide)) behindLog :=
  (log_sync_iff true {} 1 (aheadLog 2 (by decide)) behindLog (behind_prepared 2 (by decide))).mpr
    (by simp [Syncable,aheadLog,behindLog]) (List Nat) (fun _ _ => rfl) rfl

-- The follower reads its own log up to the leader's decided index, finds it too
-- short and merges the delta into a snapshot of nothing: its first entry is lost.
theorem delta_sync_loses_entry : ¬ ∀ (use : Bool) (round : Ballot) (p : Nat) (leader follower : Replica Nat),
    Prepared use p leader follower → ∀ (S : Type) [Snapshot Nat S], Snapshot.Lawful Nat S →
      Snapshot.useSnapshots S = use → SyncsWith S round p leader follower := by
  intro syncs
  have prepared := behind_prepared 0 (by decide)
  have synced := syncs true {} 1 _ _ prepared (List Nat) (fun _ _ => rfl) rfl
  have same := (delta_iff prepared (fun _ _ => rfl) rfl (by decide) (by decide) {}).mp synced
  have lengths := congrArg List.length same
  revert lengths
  decide

end Replica
end OmniPaxosKV

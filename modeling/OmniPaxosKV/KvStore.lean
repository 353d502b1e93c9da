import OmniPaxosKV.Compaction

-- The key-value store kept over the log: its entries, their snapshots, and a reader
-- that follows the decided part while the log is appended to and compacted.
namespace OmniPaxosKV

namespace KeyMap
variable {Key Value : Type} [DecidableEq Key]

-- Everything of the later map, and the rest of the earlier one.
def override (earlier later : KeyMap Key Value) : KeyMap Key Value := fun key => (later key).or (earlier key)

def insertAll (map : KeyMap Key Value) (pairs : List (Key × Value)) : KeyMap Key Value :=
  pairs.foldl (fun map pair => map.insert pair.1 pair.2) map

omit [DecidableEq Key] in
@[simp] theorem override_empty (map : KeyMap Key Value) : map.override empty = map := rfl

theorem insert_override (earlier later : KeyMap Key Value) (key : Key) (value : Value) :
    (earlier.override later).insert key value = earlier.override (later.insert key value) := by
  funext other
  simp only [override,insert_apply]
  split
  · rfl
  · rfl

theorem insertAll_override (earlier later : KeyMap Key Value) (pairs : List (Key × Value)) :
    (earlier.override later).insertAll pairs = earlier.override (later.insertAll pairs) := by
  induction pairs generalizing later with
  | nil => rfl
  | cons pair rest ih =>
    simp only [insertAll,List.foldl_cons,insert_override]
    exact ih (later.insert pair.1 pair.2)

theorem insertAll_apply (map : KeyMap Key Value) (pairs : List (Key × Value)) (keys : (pairs.map Prod.fst).Nodup) :
    (∀ pair ∈ pairs, map.insertAll pairs pair.1 = some pair.2) ∧
    ∀ key, (∀ pair ∈ pairs, pair.1 ≠ key) → map.insertAll pairs key = map key := by
  induction pairs generalizing map with
  | nil => exact ⟨nofun,fun _ _ => rfl⟩
  | cons first rest ih =>
    rw [List.map_cons,List.nodup_cons] at keys
    obtain ⟨inside,outside⟩ := ih (map.insert first.1 first.2) keys.2
    have fresh : ∀ pair ∈ rest, pair.1 ≠ first.1 := by
      intro pair member same
      exact keys.1 (same ▸ List.mem_map_of_mem member)
    constructor
    · intro pair member
      rcases List.mem_cons.mp member with rfl | later
      · exact (outside pair.1 fresh).trans (insert_self _)
      · exact inside pair later
    · intro key absent
      have other : key ≠ first.1 := (absent first List.mem_cons_self).symm
      exact (outside key fun pair member => absent pair (List.mem_cons_of_mem _ member)).trans (insert_of_ne _ other)

-- In whatever order a map's pairs are gone through, inserting them is overriding.
theorem insertAll_listed (earlier later : KeyMap Key Value) (pairs : List (Key × Value)) (keys : (pairs.map Prod.fst).Nodup)
    (listed : ∀ key value, (key,value) ∈ pairs ↔ later key = some value) :
    earlier.insertAll pairs = earlier.override later := by
  obtain ⟨inside,outside⟩ := insertAll_apply earlier pairs keys
  funext key
  rw [override]
  cases held : later key with
  | some value => exact inside (key,value) ((listed key value).mpr held)
  | none =>
    refine outside key ?_
    rintro ⟨other,value⟩ member rfl
    cases held.symm.trans ((listed other value).mp member)

end KeyMap

structure KeyValue where
  key : String
  value : UInt64
  deriving DecidableEq, Repr

structure KVSnapshot where
  snapshotted : KeyMap String UInt64

def KeyValue.pair (kv : KeyValue) : String × UInt64 := (kv.key,kv.value)

instance kvSnapshot : Snapshot KeyValue KVSnapshot where
  create entries := ⟨KeyMap.empty.insertAll (entries.map KeyValue.pair)⟩
  merge s delta := ⟨s.snapshotted.override delta.snapshotted⟩
  useSnapshots := true

theorem create_append (first later : List KeyValue) :
    (Snapshot.create (first++later) : KVSnapshot) =
      ⟨(Snapshot.create first : KVSnapshot).snapshotted.insertAll (later.map KeyValue.pair)⟩ := by
  simp only [Snapshot.create,KeyMap.insertAll,List.map_append,List.foldl_append]

theorem kvSnapshot_lawful : Snapshot.Lawful KeyValue KVSnapshot := by
  intro first later
  rw [create_append,←KeyMap.override_empty (Snapshot.create first : KVSnapshot).snapshotted,KeyMap.insertAll_override]
  rfl

namespace InternalStorage
section Suffix
variable {T S : Type} {s : OverMemory T S}

-- The type of every index before the accepted one.
theorem Coherent.getEntryType_inside (valid : Coherent s) (inside : idx < s.stateCache.acceptedIdx) :
    (idx < s.stateCache.compactedIdx ∧ s.getEntryType idx = some .compacted) ∨
    (s.stateCache.compactedIdx ≤ idx ∧ idx < s.storage.logEnd ∧ s.getEntryType idx = some .entry) ∨
    (∃ ss, s.stateCache.compactedIdx ≤ idx ∧ idx = s.storage.logEnd ∧ s.stateCache.acceptedIdx = s.storage.logEnd+1 ∧
      s.getEntryType idx = some (.stopSign ss)) := by
  have counted : s.stateCache.acceptedIdx = s.storage.logEnd+slots s.stateCache.stopsign := by
    rw [valid.accepted,valid.stopsign]
    rfl
  rcases Nat.lt_or_ge idx s.stateCache.compactedIdx with below | above
  · exact .inl ⟨below,if_pos below⟩
  · rw [getEntryType,if_neg (Nat.not_lt.mpr above)]
    cases sign : s.stateCache.stopsign with
    | none =>
      simp only [sign,slots,Option.isSome_none,Bool.false_eq_true,if_false] at counted
      refine .inr (.inl ⟨above,by omega,?_⟩)
      split
      · rfl
      · rw [if_pos (by omega)]
    | some ss =>
      simp only [sign,slots,Option.isSome_some,if_true] at counted
      rcases Nat.lt_or_ge idx s.storage.logEnd with stored | past
      · exact .inr (.inl ⟨above,stored,if_pos (by omega)⟩)
      · exact .inr (.inr ⟨ss,above,by omega,counted,by rw [if_neg (by omega),if_pos (by omega)]⟩)

theorem decided_tags (entries : List T) (offset : Nat) (decided : offset+entries.length+start ≤ decidedIdx) :
    ((entries.zipIdx offset).map fun (entry,idx) => if idx+start < decidedIdx then LogEntry.decided entry else .undecided entry) =
      entries.map .decided := by
  induction entries generalizing offset with
  | nil => rfl
  | cons entry rest ih =>
    rw [List.length_cons] at decided
    rw [List.zipIdx_cons,List.map_cons,List.map_cons,ih (offset+1) (by omega)]
    simp only
    rw [if_pos (by omega)]

theorem Coherent.createRead_decided (valid : Coherent s) (above : s.stateCache.compactedIdx ≤ fromIdx)
    (ordered : fromIdx ≤ toIdx) (stored : toIdx ≤ s.storage.logEnd) (decided : toIdx ≤ s.stateCache.decidedIdx) :
    s.createReadLogEntries fromIdx toIdx =
      .ok (((s.storage.log.drop (fromIdx-s.storage.compactedIdx)).take (toIdx-fromIdx)).map .decided) := by
  have compacted := valid.compacted
  have trimmed := valid.trimmed
  unfold MemoryStorage.logEnd at stored
  have read : s.storage.getEntries fromIdx toIdx = _ := s.storage.getEntries_ok (by omega) (by omega)
  rw [if_pos (by omega),trimmed,List.drop_take,Nat.sub_sub_sub_cancel_right (by omega)] at read
  simp only [createReadLogEntries,Storage.getEntries,read,bind,Except.bind,pure,Except.pure]
  rw [decided_tags _ 0 (by rw [List.length_take]; omega)]

-- The decided suffix: its entries, all marked decided, and the stop-sign if it is decided.
theorem Coherent.readDecidedSuffix_ok (valid : Coherent s) (above : s.stateCache.compactedIdx ≤ fromIdx)
    (newer : fromIdx < s.stateCache.decidedIdx) (within : s.stateCache.decidedIdx ≤ s.stateCache.acceptedIdx) :
    ∃ signs, s.readDecidedSuffix fromIdx = .ok (some
        (((s.storage.log.drop (fromIdx-s.storage.compactedIdx)).take (s.stateCache.decidedIdx-fromIdx)).map .decided++signs)) ∧
      ((s.storage.log.drop (fromIdx-s.storage.compactedIdx)).take (s.stateCache.decidedIdx-fromIdx)).length+signs.length =
        s.stateCache.decidedIdx-fromIdx ∧
      ∀ slot ∈ signs, ∃ ss decided, slot = .stopSign ss decided := by
  have compacted := valid.compacted
  rw [readDecidedSuffix,if_pos newer,read,if_neg (Nat.ne_zero_of_lt newer)]
  obtain ⟨below,_⟩ | ⟨_,stored,late⟩ | ⟨ss,_,last,_,late⟩ :=
    valid.getEntryType_inside (show s.stateCache.decidedIdx-1 < s.stateCache.acceptedIdx by omega)
  · omega
  · obtain ⟨below,_⟩ | ⟨_,_,early⟩ | ⟨_,_,first,_,_⟩ :=
      valid.getEntryType_inside (show fromIdx < s.stateCache.acceptedIdx by omega)
    · omega
    · rw [late,early]
      refine ⟨[],?_,?_,nofun⟩
      · simp only [valid.createRead_decided above (Nat.le_of_lt newer) (by omega) (Nat.le_refl _),List.append_nil]
        rfl
      · rw [List.length_take,List.length_drop,List.length_nil]
        unfold MemoryStorage.logEnd at stored
        omega
    · omega
  · obtain ⟨below,_⟩ | ⟨_,before,early⟩ | ⟨other,_,first,_,early⟩ :=
      valid.getEntryType_inside (show fromIdx < s.stateCache.acceptedIdx by omega)
    · omega
    -- The stop-sign is decided: it follows the last entry.
    · rw [late,early]
      have short : (s.storage.log.drop (fromIdx-s.storage.compactedIdx)).take (s.stateCache.decidedIdx-fromIdx) =
          (s.storage.log.drop (fromIdx-s.storage.compactedIdx)).take (s.stateCache.decidedIdx-1-fromIdx) := by
        unfold MemoryStorage.logEnd at last
        rw [List.take_of_length_le,List.take_of_length_le] <;> rw [List.length_drop] <;> omega
      refine ⟨[.stopSign ss s.stateCache.stopsignIsDecided],?_,?_,?_⟩
      · simp only [valid.createRead_decided above (show fromIdx ≤ s.stateCache.decidedIdx-1 by omega) (by omega) (by omega),short]
        rfl
      · rw [short,List.length_take,List.length_drop,List.length_singleton]
        unfold MemoryStorage.logEnd at before last
        omega
      · intro slot member
        exact ⟨_,_,List.mem_singleton.mp member⟩
    · rw [late,early]
      have past : s.storage.log.drop (fromIdx-s.storage.compactedIdx) = [] := by
        unfold MemoryStorage.logEnd at first
        exact List.drop_of_length_le (by omega)
      refine ⟨[.stopSign other s.stateCache.stopsignIsDecided],?_,?_,?_⟩
      · rw [past,List.take_nil]
        rfl
      · rw [past,List.take_nil,List.length_nil,List.length_singleton]
        omega
      · intro slot member
        exact ⟨_,_,List.mem_singleton.mp member⟩

end Suffix

section Forward
variable {T S : Type} [Snapshot T S] {l next : Ledger T S}

theorem Kept.decided_forward (kept : Kept l) (admitted : Admissible l op) (ran : l.step op = some next) :
    l.store.stateCache.decidedIdx ≤ next.store.stateCache.decidedIdx := by
  cases Option.some.inj ran
  cases op with
  | tryTrim => exact Nat.le_of_eq ((call_keeps kept admitted).shrinks rfl).decided.symm
  | trySnapshot => exact Nat.le_of_eq ((call_keeps kept admitted).shrinks rfl).decided.symm
  | setDecidedIdx => exact admitted.1
  | appendEntriesAndGetAcceptedIdx entries =>
    rcases appendBatched_cases l.store entries with ⟨_,grown⟩ | ⟨_,flushed⟩
    · simp only [Operation.perform,grown,Nat.le_refl]
    · simp only [Operation.perform,flushed]
      exact Nat.le_refl _
  | flushBatch => exact Nat.le_refl _
  | appendEntriesWithoutBatching => exact Nat.le_refl _
  | setStopsign ss =>
    have stopped := kept.coherent.setStopsign_memory ss
    simp only at stopped
    simp only [Operation.perform,dropResult,stopped,Nat.le_refl]
  | syncLog => exact absurd admitted not_false
  | setPromise => exact absurd admitted not_false

-- Nothing is appended behind a stop-sign, which is the only slot that is no entry.
theorem Kept.take_forward (kept : Kept l) (admitted : Admissible l op) (ran : l.step op = some next)
    (decided : idx ≤ l.store.stateCache.decidedIdx) : next.appended.take idx = l.appended.take idx := by
  cases Option.some.inj ran
  have within := kept.within
  have open' : l.store.stateCache.stopsign = none → idx ≤ l.appended.length := by
    intro unsigned
    have counted := kept.accepted
    rw [unsigned,slots,Option.isSome_none,if_neg Bool.false_ne_true] at counted
    omega
  cases op with
  | appendEntriesAndGetAcceptedIdx => exact List.take_append_of_le_length (open' admitted)
  | flushBatch => exact List.take_append_of_le_length (open' admitted)
  | appendEntriesWithoutBatching => exact List.take_append_of_le_length (open' admitted)
  | tryTrim | trySnapshot | setDecidedIdx | setStopsign => simp only [written,List.append_nil]
  | syncLog => exact absurd admitted not_false
  | setPromise => exact absurd admitted not_false

end Forward
end InternalStorage

-- The example's loop: what is decided past the last read is inserted, entry by entry.
structure Reader where
  ledger : InternalStorage.Ledger KeyValue KVSnapshot
  idx : Nat := 0
  simpleKvStore : KeyMap String UInt64 := .empty
  panicked : Bool := false

namespace Reader
open Machine

inductive Act where
  | log (op : InternalStorage.Operation KeyValue KVSnapshot)
  | poll

def insertDecided (store : KeyMap String UInt64) : LogEntry KeyValue → KeyMap String UInt64
  | .decided kv => store.insert kv.key kv.value
  | _ => store

def poll (r : Reader) : Reader :=
  match r.ledger.store.readDecidedSuffix r.idx with
  | .ok (some entries) =>
    {r with simpleKvStore:=entries.foldl insertDecided r.simpleKvStore,idx:=r.idx+entries.length}
  -- Entries were expected.
  | _ => {r with panicked:=true}

def step (r : Reader) : Act → Option Reader
  | .log op => if r.panicked then none else (r.ledger.step op).map fun ledger => {r with ledger:=ledger}
  | .poll => if r.panicked then none else some r.poll

-- The whole store that a part of the log stands for.
def replay (entries : List KeyValue) : KeyMap String UInt64 := (Snapshot.create entries : KVSnapshot).snapshotted

theorem replay_append (first later : List KeyValue) :
    replay (first++later) = (later.map LogEntry.decided).foldl insertDecided (replay first) := by
  rw [replay,create_append,KeyMap.insertAll,List.foldl_map,List.foldl_map]
  rfl

theorem insertDecided_signs (signs : List (LogEntry KeyValue)) (stops : ∀ slot ∈ signs, ∃ ss decided, slot = .stopSign ss decided)
    (store : KeyMap String UInt64) : signs.foldl insertDecided store = store := by
  induction signs with
  | nil => rfl
  | cons slot rest ih =>
    obtain ⟨ss,decided,rfl⟩ := stops slot List.mem_cons_self
    exact ih fun slot member => stops slot (List.mem_cons_of_mem _ member)

-- What is left of the log between compaction and the last read, and beyond.
def Keeping (r : Reader) : Prop :=
  r.ledger.store.stateCache.compactedIdx ≤ r.idx ∧ r.idx < r.ledger.store.stateCache.decidedIdx

structure Following (r : Reader) : Prop where
  kept : InternalStorage.Kept r.ledger
  behind : r.idx ≤ r.ledger.store.stateCache.decidedIdx
  store : r.simpleKvStore = replay (r.ledger.appended.take r.idx)

def Act.permitted (r : Reader) : Act → Prop
  | .log op => InternalStorage.Admissible r.ledger op
  | .poll => True

theorem poll_keeping {r : Reader} (following : Following r) (keeping : Keeping r) :
    Following r.poll ∧ r.poll.panicked = r.panicked := by
  have kept := following.kept
  have compacted := kept.coherent.compacted
  obtain ⟨signs,read,count,stops⟩ := kept.coherent.readDecidedSuffix_ok keeping.1 keeping.2 kept.within
  have part : r.ledger.store.storage.log.drop (r.idx-r.ledger.store.storage.compactedIdx) = r.ledger.appended.drop r.idx := by
    rw [kept.log,List.drop_drop,Nat.add_sub_cancel' (compacted ▸ keeping.1)]
  rw [part] at read count
  have polled : r.poll = {r with
      simpleKvStore:=replay (r.ledger.appended.take r.ledger.store.stateCache.decidedIdx)
      idx:=r.ledger.store.stateCache.decidedIdx} := by
    have whole : r.idx+(r.ledger.store.stateCache.decidedIdx-r.idx) = r.ledger.store.stateCache.decidedIdx :=
      Nat.add_sub_cancel' following.behind
    rw [poll,read]
    simp only
    rw [List.foldl_append,insertDecided_signs signs stops,following.store,←replay_append,←List.take_add,
      List.length_append,List.length_map,count,whole]
  rw [polled]
  exact ⟨⟨kept,Nat.le_refl _,rfl⟩,rfl⟩

-- A read that starts in the compacted part, or finds nothing newer, is not survived.
theorem poll_panics {r : Reader} (following : Following r) (missed : ¬ Keeping r) : r.poll = {r with panicked:=true} := by
  have kept := following.kept
  have within := kept.within
  unfold poll
  by_cases newer : r.idx < r.ledger.store.stateCache.decidedIdx
  · have compacted : r.idx < r.ledger.store.stateCache.compactedIdx := by
      unfold Keeping at missed
      omega
    rw [InternalStorage.readDecidedSuffix,if_pos newer,InternalStorage.read,if_neg (Nat.ne_zero_of_lt newer)]
    have early : r.ledger.store.getEntryType r.idx = some .compacted := if_pos compacted
    obtain ⟨_,late⟩ | ⟨_,_,late⟩ | ⟨_,_,_,_,late⟩ := kept.coherent.getEntryType_inside
      (show r.ledger.store.stateCache.decidedIdx-1 < r.ledger.store.stateCache.acceptedIdx by omega)
    all_goals rw [late,early]
  · rw [InternalStorage.readDecidedSuffix,if_neg newer]

theorem step_following {r next : Reader} (following : Following r) (permitted : action.permitted r)
    (ran : r.step action = some next) : Following next := by
  cases action with
  | log op =>
    simp only [step] at ran
    split at ran
    · cases ran
    · obtain ⟨ledger,moved,rfl⟩ := Option.map_eq_some_iff.mp ran
      have kept := following.kept
      refine ⟨InternalStorage.step_kept kept permitted moved,?_,?_⟩
      · exact Nat.le_trans following.behind (kept.decided_forward permitted moved)
      · rw [kept.take_forward permitted moved following.behind]
        exact following.store
  | poll =>
    simp only [step] at ran
    split at ran
    · cases ran
    · cases Option.some.inj ran
      by_cases keeping : Keeping r
      · exact (poll_keeping following keeping).1
      · rw [poll_panics following keeping]
        exact ⟨following.kept,following.behind,following.store⟩

theorem step_panics_iff {r next : Reader} (following : Following r) (ran : r.step action = some next) :
    next.panicked = false ↔ (action = .poll → Keeping r) := by
  cases action with
  | log op =>
    simp only [step] at ran
    split at ran
    · cases ran
    · rename_i running
      obtain ⟨ledger,_,rfl⟩ := Option.map_eq_some_iff.mp ran
      exact iff_of_true (Bool.eq_false_of_not_eq_true running) nofun
  | poll =>
    simp only [step] at ran
    split at ran
    · cases ran
    · rename_i running
      cases Option.some.inj ran
      by_cases keeping : Keeping r
      · exact iff_of_true ((poll_keeping following keeping).2.trans (Bool.eq_false_of_not_eq_true running)) fun _ => keeping
      · rw [poll_panics following keeping]
        exact iff_of_false Bool.noConfusion fun held => keeping (held rfl)

theorem step_running {r next : Reader} (ran : r.step action = some next) : r.panicked = false := by
  cases running : r.panicked with
  | false => rfl
  | true => cases action <;> simp [step,running] at ran

-- The calls on the log among what happens.
def Act.call : Act → Option (InternalStorage.Operation KeyValue KVSnapshot)
  | .log op => some op
  | .poll => none

theorem ledger_run {r final : Reader} (path : Runs step (fun r action => action.permitted r) r actions final) :
    Runs InternalStorage.Ledger.step InternalStorage.Admissible r.ledger (actions.filterMap Act.call) final.ledger := by
  induction path with
  | nil => exact .nil
  | snoc _ permitted ran ih =>
    rw [List.filterMap_append]
    rename_i action _ _
    cases action with
    | log op =>
      simp only [step] at ran
      split at ran
      · cases ran
      · obtain ⟨ledger,moved,rfl⟩ := Option.map_eq_some_iff.mp ran
        exact .snoc ih permitted moved
    | poll =>
      simp only [step] at ran
      split at ran
      · cases ran
      · cases Option.some.inj ran
        have same : ∀ r : Reader, r.poll.ledger = r.ledger := by
          intro r
          unfold poll
          split <;> rfl
        simpa only [List.filterMap_cons,Act.call,List.filterMap_nil,List.append_nil,same] using ih

-- A reader that follows the log holds what the entries it has read stand for, and it
-- survives exactly if at every read something newer is decided and compaction has not
-- overtaken it. Of what was compacted, in any order in which a snapshot's pairs are
-- merged, the stored snapshot holds the same, unless the log was trimmed.
theorem follows_log (batchSize : Nat) (start : InternalStorage.OverMemory KeyValue KVSnapshot)
    (opened : InternalStorage.new {} batchSize = .ok start) (actions : List Act) (final : Reader)
    (path : Runs step (fun r action => action.permitted r) {ledger:=⟨start,[]⟩} actions final) :
    final.simpleKvStore = replay (final.ledger.appended.take final.idx) ∧
    final.idx ≤ final.ledger.store.stateCache.decidedIdx ∧
    (final.panicked = false ↔ Runs step (fun r action => action = .poll → Keeping r) {ledger:=⟨start,[]⟩} actions final) ∧
    ((∀ idx, .log (.tryTrim idx) ∉ actions) → final.ledger.store.stateCache.compactedIdx ≠ 0 →
      ∃ snapshot, final.ledger.store.storage.snapshot = some snapshot ∧
        snapshot.snapshotted = replay (final.ledger.appended.take final.ledger.store.stateCache.compactedIdx) ∧
        ∀ base pairs, (pairs.map Prod.fst).Nodup →
          (∀ key value, (key,value) ∈ pairs ↔ snapshot.snapshotted key = some value) →
          base.snapshotted.insertAll pairs = (Snapshot.merge base snapshot).snapshotted) := by
  obtain ⟨kept,summarised⟩ := InternalStorage.start_kept batchSize start opened
  have begun : Following {ledger:=⟨start,[]⟩} := ⟨kept,Nat.zero_le _,rfl⟩
  have stepped : ∀ r action next, Following r → action.permitted r → step r action = some next → Following next :=
    fun _ _ _ following permitted ran => step_following following permitted ran
  have following := path.invariant Following stepped begun
  refine ⟨following.store,following.behind,?_,?_⟩
  · exact path.safe_iff (fun r => r.panicked = false) Following stepped
      (fun _ _ _ following _ ran => step_panics_iff following ran) (fun _ _ _ ran => step_running ran) begun rfl
  · intro untrimmed compacted
    have summary := InternalStorage.run_summarised (ledger_run path) kept summarised kvSnapshot_lawful ?_
    · rw [InternalStorage.Summarised,←following.kept.coherent.compacted,if_neg compacted] at summary
      refine ⟨_,summary,rfl,?_⟩
      intro base pairs keys listed
      exact KeyMap.insertAll_listed base.snapshotted _ pairs keys listed
    · rintro op member idx rfl
      obtain ⟨action,taken,same⟩ := List.mem_filterMap.mp member
      cases action with
      | poll => cases same
      | log op =>
        cases Option.some.inj same
        exact untrimmed idx taken

instance (r : Reader) (action : Act) : Decidable (action.permitted r) :=
  match action with
  | .log op => inferInstanceAs (Decidable (InternalStorage.Admissible r.ledger op))
  | .poll => .isTrue trivial

def sampleReads : List Act :=
  [.log (.appendEntriesAndGetAcceptedIdx [⟨"a",1⟩,⟨"b",2⟩]),.log (.setDecidedIdx 2),.poll,.log (.trySnapshot none),
    .log (.appendEntriesWithoutBatching [⟨"b",3⟩]),.log (.setDecidedIdx 3),.poll]

-- The second read goes on after the entries that the snapshot has taken in.
theorem follows_log_sample : ∃ final : Reader, final.idx = 3 ∧
    final.simpleKvStore = replay [⟨"a",1⟩,⟨"b",2⟩,⟨"b",3⟩] ∧
    ∃ snapshot, final.ledger.store.storage.snapshot = some snapshot ∧ snapshot.snapshotted = replay [⟨"a",1⟩,⟨"b",2⟩] := by
  obtain ⟨final,path,idx,appended,compacted⟩ := run_reaches step (fun r action => action.permitted r)
    (fun r => r.idx = 3 ∧ r.ledger.appended = [⟨"a",1⟩,⟨"b",2⟩,⟨"b",3⟩] ∧ r.ledger.store.stateCache.compactedIdx = 2)
    {ledger:=⟨⟨{},{batchSize:=1}⟩,[]⟩} sampleReads (by decide +kernel)
  obtain ⟨store,_,_,summary⟩ := follows_log 1 _ rfl sampleReads final path
  rw [idx,appended] at store
  obtain ⟨snapshot,held,same,_⟩ := summary (by simp [sampleReads]) (by omega)
  rw [appended,compacted] at same
  exact ⟨final,idx,store,snapshot,held,same⟩

end Reader
end OmniPaxosKV

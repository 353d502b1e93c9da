import OmniPaxosKV.Backends

-- Batching only delays: entries wait in the cache for a full batch or a flush,
-- and reach the back-end in the order and the number in which they came.
namespace OmniPaxosKV

-- A back-end on which appending in portions is appending at once, with the log it holds.
class AppendsInOrder (B : Type) (T S : outParam Type) [Storage B T S] where
  Holds : B → List T → Prop
  append_nil (b : B) : Storage.appendEntries ([] : List T) b = (.ok (),b)
  append_append (b after : B) (entries more : List T) : Storage.appendEntries (entries++more) b = (.ok (),after) ↔
    ∃ middle, Storage.appendEntries entries b = (.ok (),middle) ∧ Storage.appendEntries more middle = (.ok (),after)
  holds_append (b after : B) (log entries : List T) : Holds b log →
    Storage.appendEntries entries b = (.ok (),after) → Holds after (log++entries)

instance : AppendsInOrder (MemoryStorage T S) T S where
  Holds s log := s.log = log
  append_nil s := by
    change (Except.ok (),{s with log:=s.log++[]}) = _
    rw [List.append_nil]
  append_append s after entries more := by
    simp only [Storage.appendEntries,MemoryStorage.appendEntries,Prod.mk.injEq,true_and,List.append_assoc,exists_eq_left']
  holds_append s after log entries held ran := by
    cases ran
    rw [←held]

namespace PersistentStorage
variable [Bincode T]

-- The loop adds the same writes whatever the batch held before.
theorem putEntries_batch (entries : List T) (nextLogKey : Nat) (batch : List BatchOp) :
    putEntries entries (nextLogKey,batch) = ((putEntries entries (nextLogKey,[])).1,
      (putEntries entries (nextLogKey,[])).2.1,batch++(putEntries entries (nextLogKey,[])).2.2) := by
  induction entries generalizing nextLogKey batch with
  | nil => simp only [putEntries,List.append_nil]
  | cons entry rest ih =>
    simp only [putEntries]
    cases Bincode.serialize entry with
    | error fault => simp only [List.append_nil]
    | ok bytes =>
      simp only [List.nil_append]
      cases checkedAdd nextLogKey 1 with
      | error fault => rfl
      | ok next =>
        simp only
        rw [ih next (batch++[_]),ih next [_]]
        simp only [List.append_assoc]

theorem putEntries_append (entries more : List T) (nextLogKey : Nat) (batch : List BatchOp) :
    putEntries (entries++more) (nextLogKey,batch) = match putEntries entries (nextLogKey,batch) with
      | (.ok (),s) => putEntries more s
      | (.error fault,s) => (.error fault,s) := by
  induction entries generalizing nextLogKey batch with
  | nil => rfl
  | cons entry rest ih =>
    simp only [List.cons_append,putEntries]
    cases Bincode.serialize entry with
    | error fault => rfl
    | ok bytes =>
      cases checkedAdd nextLogKey 1 with
      | error fault => rfl
      | ok next => exact ih next _

theorem appendEntries_iff {s after : PersistentStorage T S} : appendEntries entries s = (.ok (),after) ↔
    ∃ nextLogKey batch, putEntries entries (s.nextLogKey,[]) = (.ok (),nextLogKey,batch) ∧
      after = {s with nextLogKey:=nextLogKey,db:=s.db.write batch} := by
  unfold appendEntries
  rcases putEntries entries (s.nextLogKey,[]) with ⟨_ | _,nextLogKey,batch⟩
  · simp
  · simp only [Prod.mk.injEq,true_and]
    constructor
    · intro same
      exact ⟨nextLogKey,batch,⟨rfl,rfl⟩,same.symm⟩
    · rintro ⟨_,_,⟨rfl,rfl⟩,same⟩
      exact same.symm

theorem putEntries_fits {entries : List T} {key next : Nat} {gathered : List BatchOp}
    (ran : putEntries entries (key,gathered) = (.ok (),next,written))
    (small : key < 2^64) : key+entries.length < 2^64 := by
  induction entries generalizing key gathered with
  | nil => exact small
  | cons entry rest ih =>
    simp only [putEntries] at ran
    cases serialized : (Bincode.serialize entry : StorageResult Bytes) with
    | error fault => simp [serialized] at ran
    | ok bytes =>
      by_cases fits : key+1 < 2^64
      · simp only [serialized,checkedAdd,if_pos fits] at ran
        have within := ih ran fits
        rw [List.length_cons]
        omega
      · simp only [serialized,checkedAdd,if_neg fits] at ran
        cases ran

theorem appendEntries_nil (s : PersistentStorage T S) : appendEntries [] s = (.ok (),s) := rfl

theorem appendEntries_append (s after : PersistentStorage T S) (entries more : List T) :
    appendEntries (entries++more) s = (.ok (),after) ↔
      ∃ middle, appendEntries entries s = (.ok (),middle) ∧ appendEntries more middle = (.ok (),after) := by
  simp only [appendEntries_iff,putEntries_append]
  constructor
  · rintro ⟨last,batch,ran,rfl⟩
    rcases first : putEntries entries (s.nextLogKey,[]) with ⟨_ | _,key,gathered⟩
    · simp [first] at ran
    · simp only [first] at ran
      rw [putEntries_batch,Prod.mk.injEq,Prod.mk.injEq] at ran
      obtain ⟨wrote,rfl,rfl⟩ := ran
      refine ⟨_,⟨key,gathered,rfl,rfl⟩,_,(putEntries more (key,[])).2.2,Prod.ext wrote rfl,?_⟩
      simp only [RocksDB.write,List.foldl_append]
  · rintro ⟨_,⟨key,gathered,first,rfl⟩,last,batch,second,rfl⟩
    refine ⟨last,gathered++batch,?_,?_⟩
    · simp only [first]
      rw [putEntries_batch,second]
    · simp only [RocksDB.write,List.foldl_append]

end PersistentStorage

open Backends in
instance [Bincode T] [Bincode (Option S)] [Bincode Ballot] [Bincode (Option StopSign)] [Bincode.Lossless T] :
    AppendsInOrder (PersistentStorage T S) T S where
  Holds s log := ∃ m : MemoryStorage T S, m.log = log ∧ Mirrors m s ∧ s.nextLogKey = m.trimmedIdx+m.log.length
  append_nil := PersistentStorage.appendEntries_nil
  append_append := PersistentStorage.appendEntries_append
  holds_append s after log entries held ran := by
    obtain ⟨m,rfl,valid,last⟩ := held
    obtain ⟨key,batch,wrote,_⟩ := PersistentStorage.appendEntries_iff.mp ran
    have fits := PersistentStorage.putEntries_fits wrote (by rw [last]; exact valid.fits)
    cases (appendEntries_ok s entries fits).symm.trans ran
    rw [last] at fits ⊢
    exact ⟨_,rfl,valid.append entries fits,by simp only [withPuts,List.length_append,Nat.add_assoc]⟩

inductive BatchCall (T : Type) where
  | appendEntriesAndGetAcceptedIdx (entries : List T)
  | flushBatch

namespace BatchCall
variable {B T S : Type}

def entries : BatchCall T → List T
  | .appendEntriesAndGetAcceptedIdx entries => entries
  | .flushBatch => []

def perform [Storage B T S] : BatchCall T → StorageCall (InternalStorage B T) Unit
  | .appendEntriesAndGetAcceptedIdx entries => fun s => InternalStorage.dropResult (s.appendEntriesAndGetAcceptedIdx entries)
  | .flushBatch => fun s => InternalStorage.dropResult s.flushBatch

-- A run goes on while the back-end does not fail.
def step [Storage B T S] (s : InternalStorage B T) (call : BatchCall T) : Option (InternalStorage B T) :=
  match call.perform s with
  | (.ok (),next) => some next
  | (.error _,_) => none

end BatchCall

namespace InternalStorage
open Machine AppendsInOrder
variable {B T S : Type} [Storage B T S]

theorem step_iff (s : InternalStorage B T) (call : BatchCall T) :
    BatchCall.step s call = some next ↔ call.perform s = (.ok (),next) := by
  unfold BatchCall.step
  rcases call.perform s with ⟨_ | _,_⟩ <;> simp

-- The entries leave the cache for the back-end.
def withMoved (s : InternalStorage B T) (storage : B) (count : Nat) (batched : List T) : InternalStorage B T :=
  ⟨storage,{s.stateCache with batchedEntries:=batched,acceptedIdx:=s.stateCache.acceptedIdx+count}⟩

theorem moves_iff (s : InternalStorage B T) (moved : List T) :
    dropResult (({s with stateCache:={s.stateCache with batchedEntries:=[]}} : InternalStorage B T).appendEntriesWithoutBatching
      moved) = (.ok (),next) ↔ ∃ storage, Storage.appendEntries moved s.storage = (.ok (),storage) ∧
        next = s.withMoved storage moved.length [] := by
  simp only [dropResult_ok,appendEntriesWithoutBatching]
  rcases Storage.appendEntries moved s.storage with ⟨_ | _,storage⟩
  · simp
  · simp only [withMoved,Prod.mk.injEq,true_and,Except.ok.injEq,exists_eq_left']
    exact eq_comm

theorem waits_iff {cache : StateCache T} :
    (cache.appendEntries entries).1 = none ↔ (cache.batchedEntries++entries).length < cache.batchSize := by
  simp only [StateCache.appendEntries,StateCache.takeEntriesIfBatchIsFull]
  split
  · rename_i full
    refine ⟨?_,fun few => absurd full (Nat.not_le_of_lt few)⟩
    intro waits
    cases waits
  · rename_i few
    exact ⟨fun _ => Nat.lt_of_not_le few,fun _ => rfl⟩

-- What one call does: the batch grows, or it goes to the back-end as a whole.
theorem step_cases (s : InternalStorage B T) (call : BatchCall T)
    (ran : BatchCall.step s call = some next) :
    ((s.stateCache.batchedEntries++call.entries).length < s.stateCache.batchSize ∧
      next = s.withMoved s.storage 0 (s.stateCache.batchedEntries++call.entries)) ∨
    ∃ storage, Storage.appendEntries (s.stateCache.batchedEntries++call.entries) s.storage = (.ok (),storage) ∧
      next = s.withMoved storage (s.stateCache.batchedEntries++call.entries).length [] := by
  rw [step_iff] at ran
  cases call with
  | appendEntriesAndGetAcceptedIdx entries =>
    rcases appendBatched_cases s entries with ⟨short,waits⟩ | ⟨_,moves⟩
    · cases waits.symm.trans ran
      exact .inl ⟨waits_iff.mp short,rfl⟩
    · exact .inr ((moves_iff s _).mp (moves.symm.trans ran))
  | flushBatch =>
    rw [BatchCall.entries,List.append_nil]
    exact .inr ((moves_iff s _).mp ran)

-- Where a run stands: what it moved, what still waits, and what the cache counts.
structure Delayed (start s : InternalStorage B T) (moved : List T) : Prop where
  stored : Storage.appendEntries moved start.storage = (.ok (),s.storage)
  short : s.stateCache.batchedEntries.length < start.stateCache.batchSize
  state : s = start.withMoved s.storage moved.length s.stateCache.batchedEntries

def appended (calls : List (BatchCall T)) : List T := calls.flatMap BatchCall.entries

@[simp] theorem appended_snoc (calls : List (BatchCall T)) (call : BatchCall T) :
    appended (calls++[call]) = appended calls++call.entries := by
  simp only [appended,List.flatMap_append,List.flatMap_cons,List.flatMap_nil,List.append_nil]

variable [AppendsInOrder B T S] {start : InternalStorage B T}

theorem delayed_step (sized : 1 ≤ start.stateCache.batchSize) (valid : Delayed start s moved)
    (ran : BatchCall.step s call = some next) : ∃ moved', Delayed start next moved' ∧
      moved'++next.stateCache.batchedEntries = moved++s.stateCache.batchedEntries++call.entries := by
  have sameSize : s.stateCache.batchSize = start.stateCache.batchSize := by rw [valid.state]; rfl
  rcases step_cases s call ran with ⟨short,rfl⟩ | ⟨storage,wrote,rfl⟩
  · refine ⟨moved,⟨valid.stored,by rw [←sameSize]; exact short,?_⟩,?_⟩
    · rw [valid.state]
      rfl
    · simp only [withMoved,List.append_assoc]
  · refine ⟨moved++(s.stateCache.batchedEntries++call.entries),⟨?_,sized,?_⟩,?_⟩
    · exact (append_append ..).mpr ⟨s.storage,valid.stored,wrote⟩
    · rw [valid.state]
      simp only [withMoved,List.length_append,Nat.add_assoc]
    · simp only [withMoved,List.append_nil,List.append_assoc]

theorem delayed_run (sized : 1 ≤ start.stateCache.batchSize) (empty : start.stateCache.batchedEntries = [])
    (path : Reaches BatchCall.step start calls final) : ∃ moved, Delayed start final moved ∧
      moved++final.stateCache.batchedEntries = appended calls := by
  refine path.recorded (fun calls s => ∃ moved, Delayed start s moved ∧ moved++s.stateCache.batchedEntries = appended calls) ?_ ?_
  · rintro calls s call next _ ⟨moved,valid,all⟩ ran
    obtain ⟨moved',valid',more⟩ := delayed_step sized valid ran
    exact ⟨moved',valid',by rw [more,all,appended_snoc]⟩
  · refine ⟨[],⟨append_nil _,by rw [empty]; exact sized,?_⟩,empty⟩
    rcases start with ⟨storage,cache⟩
    rfl

def withBatchSize (batchSize : Nat) (s : InternalStorage B T) : InternalStorage B T :=
  {s with stateCache:={s.stateCache with batchSize:=batchSize}}

-- With no room to wait, a call writes its entries through.
theorem step_unbatched {s : InternalStorage B T} {storage : B} (call : BatchCall T) (single : s.stateCache.batchSize = 1)
    (empty : s.stateCache.batchedEntries = []) (wrote : Storage.appendEntries call.entries s.storage = (.ok (),storage)) :
    BatchCall.step s call = some (s.withMoved storage call.entries.length []) := by
  rw [step_iff]
  cases call with
  | appendEntriesAndGetAcceptedIdx entries =>
    rcases appendBatched_cases s entries with ⟨short,waits⟩ | ⟨_,moves⟩
    · -- Nothing waits but nothing at all.
      rw [waits_iff,single,empty,List.nil_append,Nat.lt_one_iff,List.length_eq_zero_iff] at short
      subst short
      cases (append_nil s.storage).symm.trans wrote
      refine waits.trans ?_
      rw [empty]
      rfl
    · rw [empty,List.nil_append] at moves
      exact moves.trans ((moves_iff s entries).mpr ⟨storage,wrote,rfl⟩)
  | flushBatch =>
    refine (moves_iff s s.stateCache.batchedEntries).mpr ⟨storage,?_,?_⟩
    · rw [empty]
      exact wrote
    · rw [empty]
      rfl

theorem unbatched_run (calls : List (BatchCall T)) {s : InternalStorage B T} {storage : B} (single : s.stateCache.batchSize = 1)
    (empty : s.stateCache.batchedEntries = []) (wrote : Storage.appendEntries (appended calls) s.storage = (.ok (),storage)) :
    Reaches BatchCall.step s calls (s.withMoved storage (appended calls).length []) := by
  induction calls generalizing s with
  | nil =>
    cases (append_nil s.storage).symm.trans wrote
    have same : s.withMoved s.storage 0 [] = s := by
      simp only [withMoved,Nat.add_zero,←empty]
    rw [appended,List.flatMap_nil,List.length_nil,same]
    exact .nil
  | cons call rest ih =>
    obtain ⟨middle,first,later⟩ := (append_append ..).mp (show Storage.appendEntries (call.entries++appended rest) _ = _ from wrote)
    have moved := step_unbatched call single empty first
    have path := ih (s:=s.withMoved middle call.entries.length []) single rfl later
    have joined := (Runs.snoc .nil trivial moved).append path
    rwa [show (s.withMoved middle call.entries.length []).withMoved storage (appended rest).length [] =
      s.withMoved storage (appended (call::rest)).length [] by
        simp only [withMoved,appended,List.flatMap_cons,List.length_append,Nat.add_assoc]] at joined

-- On a back-end that never fails no call fails.
omit [AppendsInOrder B T S] in
theorem unfailing_step (unfailing : ∀ (entries : List T) (b : B), ∃ after, Storage.appendEntries entries b = (.ok (),after))
    (s : InternalStorage B T) (call : BatchCall T) : ∃ next, BatchCall.step s call = some next := by
  simp only [step_iff]
  cases call with
  | appendEntriesAndGetAcceptedIdx entries =>
    rcases appendBatched_cases s entries with ⟨_,waits⟩ | ⟨_,moves⟩
    · exact ⟨_,waits⟩
    · obtain ⟨after,wrote⟩ := unfailing (s.stateCache.batchedEntries++entries) s.storage
      exact ⟨_,moves.trans ((moves_iff s _).mpr ⟨after,wrote,rfl⟩)⟩
  | flushBatch =>
    obtain ⟨after,wrote⟩ := unfailing s.stateCache.batchedEntries s.storage
    exact ⟨_,(moves_iff s _).mpr ⟨after,wrote,rfl⟩⟩

omit [AppendsInOrder B T S] in
theorem unfailing_run (unfailing : ∀ (entries : List T) (b : B), ∃ after, Storage.appendEntries entries b = (.ok (),after))
    (s : InternalStorage B T) (calls : List (BatchCall T)) : ∃ final, Reaches BatchCall.step s calls final := by
  induction calls generalizing s with
  | nil => exact ⟨s,.nil⟩
  | cons call rest ih =>
    obtain ⟨middle,moved⟩ := unfailing_step unfailing s call
    obtain ⟨final,path⟩ := ih middle
    exact ⟨final,(Runs.snoc .nil trivial moved).append path⟩

-- Every sequence of calls runs on a storage that does not fail. Wherever a run
-- stands, the log and the batch are what was appended, in its order, the batch is
-- not full and the accepted index counts what left it; flushed, it is where the
-- same calls stand with a batch of one, for which that flush does nothing more.
theorem batching_only_delays (start : InternalStorage B T) (calls : List (BatchCall T))
    (sized : 1 ≤ start.stateCache.batchSize) (empty : start.stateCache.batchedEntries = []) :
    ((∀ (entries : List T) (b : B), ∃ after, Storage.appendEntries entries b = (.ok (),after)) →
      ∃ final, Reaches BatchCall.step start calls final) ∧
    ∀ final, Reaches BatchCall.step start calls final →
      (∃ moved, moved++final.stateCache.batchedEntries = appended calls ∧
        (∀ log, Holds start.storage log → Holds final.storage (log++moved)) ∧
        final.stateCache.batchedEntries.length < start.stateCache.batchSize ∧
        final.stateCache.acceptedIdx = start.stateCache.acceptedIdx+moved.length) ∧
      ∀ flushed, BatchCall.step final .flushBatch = some flushed → ∃ single,
        Reaches BatchCall.step (start.withBatchSize 1) calls single ∧
        BatchCall.step single .flushBatch = some single ∧
        single.storage = flushed.storage ∧ single.stateCache.acceptedIdx = flushed.stateCache.acceptedIdx := by
  refine ⟨fun unfailing => unfailing_run unfailing start calls,?_⟩
  intro final path
  obtain ⟨moved,valid,all⟩ := delayed_run sized empty path
  refine ⟨⟨moved,all,?_,valid.short,by rw [valid.state]; rfl⟩,?_⟩
  · intro log held
    exact holds_append _ _ log moved held valid.stored
  · intro flushed ran
    obtain ⟨storage,wrote,rfl⟩ := (moves_iff final _).mp ((step_iff final .flushBatch).mp ran)
    have stored := (append_append ..).mpr ⟨final.storage,valid.stored,wrote⟩
    rw [all] at stored
    have path := unbatched_run calls (s:=start.withBatchSize 1) rfl empty stored
    refine ⟨_,path,?_,rfl,?_⟩
    · rw [step_unbatched .flushBatch rfl rfl (append_nil _)]
      rfl
    · rw [valid.state,←all]
      simp only [withMoved,withBatchSize,List.length_append,Nat.add_assoc]

section Sample

-- Four appends with a batch of two: the second overshoots it, a flush comes early.
def sampleCalls : List (BatchCall UInt8) :=
  [.appendEntriesAndGetAcceptedIdx [1],.appendEntriesAndGetAcceptedIdx [2,3],.appendEntriesAndGetAcceptedIdx [4],.flushBatch,
    .appendEntriesAndGetAcceptedIdx [5]]

def batchOfTwo : InternalStorage (MemoryStorage UInt8 (List UInt8)) UInt8 := ⟨{},{batchSize:=2}⟩

theorem batching_only_delays_overshoot : ∃ final, Reaches BatchCall.step batchOfTwo sampleCalls final ∧
    final.storage.log = [1,2,3,4] ∧ final.stateCache.batchedEntries = [5] ∧ final.stateCache.acceptedIdx = 4 ∧
    ∃ moved, moved++final.stateCache.batchedEntries = appended sampleCalls ∧
      (∀ log, Holds batchOfTwo.storage log → Holds final.storage (log++moved)) ∧
      final.stateCache.batchedEntries.length < 2 ∧ final.stateCache.acceptedIdx = 0+moved.length := by
  obtain ⟨final,path,log,batched,accepted⟩ := run_reaches BatchCall.step (fun _ _ => True)
    (fun s : InternalStorage (MemoryStorage UInt8 (List UInt8)) UInt8 =>
      s.storage.log = [1,2,3,4] ∧ s.stateCache.batchedEntries = [5] ∧ s.stateCache.acceptedIdx = 4)
    batchOfTwo sampleCalls (by decide +kernel)
  exact ⟨final,path,log,batched,accepted,((batching_only_delays batchOfTwo sampleCalls (by decide) rfl).2 final path).1⟩

end Sample

end InternalStorage
end OmniPaxosKV

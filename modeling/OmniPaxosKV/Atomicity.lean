import OmniPaxosKV.Backends

-- What a failed write leaves behind: the gathered batch and the next log key
-- outlive the call that gathered them, and are not put back when it fails.
namespace OmniPaxosKV
namespace PersistentStorage
variable {T S : Type}

section Calls
variable [Bincode T]

-- The database takes the batch of this call, or refuses it and stays as it was.
-- Either way the batch is gone from the storage.
def commitBatch (written : Bool) : StorageCall (PersistentStorage T S) Unit :=
  fun s => if written then (.ok (),s.flush) else (.error .backend,{s with writeBatch:=[]})

def tryWriteAtomically [Bincode (Option S)] [Bincode Ballot] [Bincode (Option StopSign)] (written : Bool) :
    List (StorageOp T S) → StorageCall (PersistentStorage T S) Unit
  | [] => commitBatch written
  | op::rest => fun s => match batch op s with
    | (.ok (),s) => tryWriteAtomically written rest s
    | (.error fault,s) => (.error fault,s)

def tryAppendEntries (written : Bool) (entries : List T) : StorageCall (PersistentStorage T S) Unit :=
  fun s => match putEntries entries (s.nextLogKey,[]) with
    | (.error fault,nextLogKey,_) => (.error fault,{s with nextLogKey:=nextLogKey})
    | (.ok (),nextLogKey,batch) =>
      if written then (.ok (),{s with nextLogKey:=nextLogKey,db:=s.db.write batch})
      else (.error .backend,{s with nextLogKey:=nextLogKey})

-- With a database that takes every batch these are the plain calls.
theorem tryWriteAtomically_written [Bincode (Option S)] [Bincode Ballot] [Bincode (Option StopSign)]
    (ops : List (StorageOp T S)) (s : PersistentStorage T S) : tryWriteAtomically true ops s = writeAtomically ops s := by
  induction ops generalizing s with
  | nil => rfl
  | cons op rest ih =>
    simp only [tryWriteAtomically,writeAtomically]
    rcases batch op s with ⟨_ | _,next⟩
    · rfl
    · exact ih next

theorem tryAppendEntries_written (entries : List T) (s : PersistentStorage T S) :
    tryAppendEntries true entries s = appendEntries entries s := rfl

end Calls

-- The ways to split a list at one of its elements.
theorem splits_nil {α : Type} {split : List α → α → List α → Prop} :
    ∀ before item after, ([] : List α) = before++item::after → split before item after := by
  intro before item after same
  cases before <;> cases same

theorem splits_cons {α : Type} {first : α} {rest : List α} {split : List α → α → List α → Prop} :
    (∀ before item after, first::rest = before++item::after → split before item after) ↔
      split [] first rest ∧ ∀ before item after, rest = before++item::after → split (first::before) item after := by
  constructor
  · intro all
    exact ⟨all [] first rest rfl,fun before item after same => all (first::before) item after (congrArg (first::·) same)⟩
  · rintro ⟨here,later⟩ before item after same
    cases before with
    | nil =>
      cases same
      exact here
    | cons other before =>
      cases same
      exact later before item after rfl

section Values
variable [Bincode α]

def Serializable (value : α) : Prop := ∃ bytes, Bincode.serialize value = .ok bytes

def Refused (value : α) : Prop := ∃ fault, Bincode.serialize value = .error fault ∧ fault ≠ .panic

theorem Serializable.not_refused {value : α} (fine : Serializable value) : ¬ Refused value := by
  obtain ⟨bytes,written⟩ := fine
  rintro ⟨fault,failed,_⟩
  cases written.symm.trans failed

end Values

section Entries
variable [Bincode T]

-- Entries that all find a key and a serialization, from the next key on.
def Storable (key : Nat) (entries : List T) : Prop :=
  (∀ entry ∈ entries, Serializable entry) ∧ (entries = [] ∨ key+entries.length < 2^64)

-- One of the entries has no serialization, and the loop reaches it.
def RefusedIn (key : Nat) (entries : List T) : Prop :=
  ∃ before entry after, entries = before++entry::after ∧ Storable key before ∧ Refused entry

theorem storable_nil (key : Nat) : Storable key ([] : List T) := ⟨List.forall_mem_nil _,.inl rfl⟩

theorem storable_cons (key : Nat) (entry : T) (rest : List T) : Storable key (entry::rest) ↔
    Serializable entry ∧ key+1 < 2^64 ∧ Storable (key+1) rest := by
  simp only [Storable,List.forall_mem_cons,List.length_cons,reduceCtorEq,false_or]
  constructor
  · rintro ⟨⟨first,others⟩,fits⟩
    exact ⟨first,by omega,others,.inr (by omega)⟩
  · rintro ⟨first,fits,others,rfl | more⟩
    · exact ⟨⟨first,others⟩,fits⟩
    · exact ⟨⟨first,others⟩,by omega⟩

theorem refusedIn_cons (key : Nat) (entry : T) (rest : List T) : RefusedIn key (entry::rest) ↔
    Refused entry ∨ Serializable entry ∧ key+1 < 2^64 ∧ RefusedIn (key+1) rest := by
  constructor
  · rintro ⟨before,last,after,same,stored,refused⟩
    cases before with
    | nil =>
      cases same
      exact .inl refused
    | cons first before =>
      cases same
      obtain ⟨fine,fits,others⟩ := (storable_cons ..).mp stored
      exact .inr ⟨fine,fits,before,last,after,rfl,others,refused⟩
  · rintro (refused | ⟨fine,fits,before,last,after,rfl,others,refused⟩)
    · exact ⟨[],entry,rest,rfl,storable_nil key,refused⟩
    · exact ⟨entry::before,last,after,rfl,(storable_cons ..).mpr ⟨fine,fits,others⟩,refused⟩

theorem Storable.not_refusedIn {entries : List T} (stored : Storable key entries) : ¬ RefusedIn key entries := by
  rintro ⟨before,entry,after,rfl,_,refused⟩
  exact (stored.1 entry (List.mem_append_right _ List.mem_cons_self)).not_refused refused

-- The loop stores all entries, fails at the first that is refused, or runs out of keys.
theorem putEntries_cases (entries : List T) (key : Nat) (gathered : List BatchOp) :
    (Storable key entries ∧ ∃ pushed : List BatchOp, pushed.length = entries.length ∧
      putEntries entries (key,gathered) = (.ok (),key+entries.length,gathered++pushed)) ∨
    (RefusedIn key entries ∧ ∃ fault, ∃ pushed : List BatchOp, fault ≠ .panic ∧
      putEntries entries (key,gathered) = (.error fault,key+pushed.length,gathered++pushed) ∧
      (pushed = [] ↔ ∀ entry ∈ entries.head?, Refused entry)) ∨
    (¬ Storable key entries ∧ ¬ RefusedIn key entries ∧ ∃ s, putEntries entries (key,gathered) = (.error .panic,s)) := by
  induction entries generalizing key gathered with
  | nil => exact .inl ⟨storable_nil key,[],rfl,by simp only [putEntries,List.append_nil]; rfl⟩
  | cons entry rest ih =>
    rw [storable_cons,refusedIn_cons]
    cases serialized : (Bincode.serialize entry : StorageResult Bytes) with
    | error fault =>
      have unfit : ¬ Serializable entry := by
        rintro ⟨bytes,written⟩
        cases written.symm.trans serialized
      by_cases ends : fault = .panic
      · refine .inr (.inr ⟨fun all => unfit all.1,?_,(key,gathered),?_⟩)
        · rintro (⟨other,failed,live⟩ | ⟨fine,_⟩)
          · cases failed.symm.trans serialized
            exact live ends
          · exact unfit fine
        · simp only [putEntries,serialized,ends]
      · have refused : Refused entry := ⟨fault,serialized,ends⟩
        refine .inr (.inl ⟨.inl refused,fault,[],ends,?_,fun _ => ?_,fun _ => rfl⟩)
        · simp only [putEntries,serialized,List.append_nil,List.length_nil,Nat.add_zero]
        · rintro _ ⟨⟩
          exact refused
    | ok bytes =>
      have fine : Serializable entry := ⟨bytes,serialized⟩
      by_cases fits : key+1 < 2^64
      · simp only [putEntries,serialized,checkedAdd,if_pos fits]
        rcases ih (key+1) (gathered++[.putLog (toBeBytes key) bytes]) with
          ⟨stored,pushed,count,ran⟩ | ⟨failed,fault,pushed,live,ran,_⟩ | ⟨unfit,sound,s,ran⟩
        · refine .inl ⟨⟨fine,fits,stored⟩,.putLog (toBeBytes key) bytes::pushed,congrArg (·+1) count,?_⟩
          rw [ran,List.append_assoc,List.length_cons,Nat.add_assoc,Nat.add_comm 1]
          rfl
        · refine .inr (.inl ⟨.inr ⟨fine,fits,failed⟩,fault,.putLog (toBeBytes key) bytes::pushed,live,?_,?_⟩)
          · rw [ran,List.append_assoc,List.length_cons,Nat.add_assoc,Nat.add_comm 1]
            rfl
          · exact ⟨fun none => (List.cons_ne_nil _ _ none).elim,fun first => absurd (first entry rfl) fine.not_refused⟩
        · refine .inr (.inr ⟨fun all => unfit all.2.2,?_,s,ran⟩)
          rintro (refused | ⟨_,_,failed⟩)
          · exact fine.not_refused refused
          · exact sound failed
      · refine .inr (.inr ⟨fun all => fits all.2.1,?_,(key,gathered++[.putLog (toBeBytes key) bytes]),?_⟩)
        · rintro (refused | ⟨_,another,_⟩)
          · exact fine.not_refused refused
          · exact fits another
        · simp only [putEntries,serialized,checkedAdd,if_neg fits]

-- A storage after its batch and its next key have moved on.
def gather (s : PersistentStorage T S) (pushed : List BatchOp) (key : Nat) : PersistentStorage T S :=
  {s with nextLogKey:=key,writeBatch:=s.writeBatch++pushed}

omit [Bincode T] in
theorem gather_nothing (s : PersistentStorage T S) : s.gather [] s.nextLogKey = s := by
  simp only [gather,List.append_nil]

omit [Bincode T] in
theorem gather_gather (s : PersistentStorage T S) (queued pushed : List BatchOp) (middle key : Nat) :
    (s.gather queued middle).gather pushed key = s.gather (queued++pushed) key := by
  simp only [gather,List.append_assoc]

omit [Bincode T] in
theorem gather_eq_self {s : PersistentStorage T S} : s.gather pushed key = s ↔ pushed = [] ∧ key = s.nextLogKey := by
  constructor
  · intro same
    refine ⟨?_,congrArg nextLogKey same⟩
    exact List.append_right_eq_self.mp (congrArg writeBatch same)
  · rintro ⟨rfl,rfl⟩
    exact gather_nothing s

theorem batchAppendEntries_cases (entries : List T) (s : PersistentStorage T S) :
    (Storable s.nextLogKey entries ∧ ∃ pushed : List BatchOp, pushed.length = entries.length ∧
      batchAppendEntries entries s = (.ok (),s.gather pushed (s.nextLogKey+entries.length))) ∨
    (RefusedIn s.nextLogKey entries ∧ ∃ fault, ∃ pushed : List BatchOp, fault ≠ .panic ∧
      batchAppendEntries entries s = (.error fault,s.gather pushed (s.nextLogKey+pushed.length)) ∧
      (pushed = [] ↔ ∀ entry ∈ entries.head?, Refused entry)) ∨
    (¬ Storable s.nextLogKey entries ∧ ¬ RefusedIn s.nextLogKey entries ∧
      ∃ next, batchAppendEntries entries s = (.error .panic,next)) := by
  rcases putEntries_cases entries s.nextLogKey s.writeBatch with
    ⟨stored,pushed,count,ran⟩ | ⟨failed,fault,pushed,live,ran,first⟩ | ⟨unfit,sound,_,ran⟩
  · exact .inl ⟨stored,pushed,count,by simp only [batchAppendEntries,ran,gather]⟩
  · exact .inr (.inl ⟨failed,fault,pushed,live,by simp only [batchAppendEntries,ran,gather],first⟩)
  · exact .inr (.inr ⟨unfit,sound,_,by simp only [batchAppendEntries,ran]; rfl⟩)

end Entries

section Operations
variable [Bincode T] [Bincode (Option S)] [Bincode Ballot] [Bincode (Option StopSign)]

-- The whole operation is gathered, from this next key on.
def Accepted (key : Nat) : StorageOp T S → Prop
  | .appendEntry entry => Storable key [entry]
  | .appendEntries entries => Storable key entries
  | .appendOnPrefix fromIdx entries => fromIdx+entries.length < 2^64 ∧ Storable fromIdx entries
  | .setPromise ballot => Serializable ballot
  | .setAcceptedRound ballot => Serializable ballot
  | .setStopsign ss => Serializable ss
  | .setSnapshot snapshot => Serializable snapshot
  | .setDecidedIndex _ | .setCompactedIdx _ | .trim _ => True

-- The operation holds a value without a serialization, and it is reached.
def Refuses (key : Nat) : StorageOp T S → Prop
  | .appendEntry entry => RefusedIn key [entry]
  | .appendEntries entries => RefusedIn key entries
  | .appendOnPrefix fromIdx entries => fromIdx+entries.length < 2^64 ∧ RefusedIn fromIdx entries
  | .setPromise ballot => Refused ballot
  | .setAcceptedRound ballot => Refused ballot
  | .setStopsign ss => Refused ss
  | .setSnapshot snapshot => Refused snapshot
  | .setDecidedIndex _ | .setCompactedIdx _ | .trim _ => False

-- There is nothing to write and nothing to delete in it.
def Quiet (key : Nat) : StorageOp T S → Prop
  | .appendEntries entries => entries = []
  | .appendOnPrefix fromIdx entries => entries = [] ∧ key ≤ fromIdx
  | _ => False

-- What a refused operation asks to fail before it writes or deletes anything, with
-- the next key back at `start`: only its first value is refused, and a prefix that
-- is kept ends at `start` and has nothing behind it to delete.
def Untouched (start key : Nat) : StorageOp T S → Prop
  | .appendEntries entries => key = start ∧ ∀ entry ∈ entries.head?, Refused entry
  | .appendOnPrefix fromIdx entries =>
      fromIdx = start ∧ key ≤ fromIdx+entries.length ∧ ∀ entry ∈ entries.head?, Refused entry
  | _ => key = start

omit [Bincode T] [Bincode (Option S)] [Bincode Ballot] [Bincode (Option StopSign)] in
theorem batchPut_cases [Bincode α] (slot : StateKey) (value : α) (s : PersistentStorage T S) :
    (Serializable value ∧ ∃ pushed : List BatchOp, (pushed = [] ↔ False) ∧
      batchPut slot value s = (.ok (),s.gather pushed s.nextLogKey)) ∨
    (Refused value ∧ ∃ fault, ∃ pushed : List BatchOp, ∃ last, fault ≠ .panic ∧
      batchPut slot value s = (.error fault,s.gather pushed last) ∧
      ∀ start, pushed = [] ∧ last = start ↔ s.nextLogKey = start) ∨
    (¬ Serializable value ∧ ¬ Refused value ∧ ∃ next, batchPut slot value s = (.error .panic,next)) := by
  unfold batchPut
  cases serialized : (Bincode.serialize value : StorageResult Bytes) with
  | ok bytes => exact .inl ⟨⟨bytes,serialized⟩,[_],iff_of_false (List.cons_ne_nil _ _) not_false,rfl⟩
  | error fault =>
    by_cases ends : fault = .panic
    · subst ends
      refine .inr (.inr ⟨?_,?_,s,rfl⟩)
      · rintro ⟨bytes,written⟩
        cases written.symm.trans serialized
      · rintro ⟨other,failed,live⟩
        cases failed.symm.trans serialized
        exact live rfl
    · refine .inr (.inl ⟨⟨fault,serialized,ends⟩,fault,[],s.nextLogKey,ends,?_,?_⟩)
      · rw [gather_nothing]
      · exact fun start => and_iff_right rfl

theorem Accepted.not_refuses {op : StorageOp T S} (accepted : Accepted key op) : ¬ Refuses key op := by
  cases op with
  | appendEntry => exact Storable.not_refusedIn accepted
  | appendEntries => exact Storable.not_refusedIn accepted
  | appendOnPrefix => exact fun refused => accepted.2.not_refusedIn refused.2
  | setPromise | setAcceptedRound | setStopsign | setSnapshot => exact Serializable.not_refused accepted
  | setDecidedIndex | setCompactedIdx | trim => exact fun refused => refused

-- What sticks out behind the new end is deleted first.
theorem appendOnPrefix_opens (s : PersistentStorage T S) (entries : List T) (fits : fromIdx+entries.length < 2^64) :
    ∃ cut : List BatchOp, (cut = [] ↔ s.nextLogKey ≤ fromIdx+entries.length) ∧
      batch (.appendOnPrefix fromIdx entries) s = batchAppendEntries entries (s.gather cut fromIdx) := by
  simp only [batch,batchAppendOnPrefix,checkedAdd,if_pos fits]
  by_cases longer : fromIdx+entries.length < s.nextLogKey
  · refine ⟨[.deleteRangeLog (toBeBytes (fromIdx+entries.length)) (toBeBytes s.nextLogKey)],?_,?_⟩
    · exact iff_of_false (List.cons_ne_nil _ _) (Nat.not_le_of_lt longer)
    · rw [if_pos longer]
      rfl
  · refine ⟨[],iff_of_true rfl (Nat.le_of_not_lt longer),?_⟩
    rw [if_neg longer]
    simp only [gather,List.append_nil]

-- One operation: gathered whole, refused, or the end of the task.
theorem batch_cases (op : StorageOp T S) (s : PersistentStorage T S) :
    (Accepted s.nextLogKey op ∧ ∃ pushed : List BatchOp, (pushed = [] ↔ Quiet s.nextLogKey op) ∧
      batch op s = (.ok (),s.gather pushed (Backends.nextKey s.nextLogKey op))) ∨
    (Refuses s.nextLogKey op ∧ ∃ fault, ∃ pushed : List BatchOp, ∃ last, fault ≠ .panic ∧
      batch op s = (.error fault,s.gather pushed last) ∧
      ∀ start, pushed = [] ∧ last = start ↔ Untouched start s.nextLogKey op) ∨
    (¬ Accepted s.nextLogKey op ∧ ¬ Refuses s.nextLogKey op ∧ ∃ next, batch op s = (.error .panic,next)) := by
  cases op with
  | setPromise ballot => exact batchPut_cases .nprom ballot s
  | setAcceptedRound ballot => exact batchPut_cases .acc ballot s
  | setStopsign ss => exact batchPut_cases .stopsign ss s
  | setSnapshot snapshot => exact batchPut_cases .snapshot snapshot s
  | setDecidedIndex | setCompactedIdx | trim =>
    exact .inl ⟨trivial,[_],iff_of_false (List.cons_ne_nil _ _) not_false,rfl⟩
  | appendEntry entry =>
    rcases batchAppendEntries_cases [entry] s with
      ⟨stored,pushed,count,ran⟩ | ⟨failed,fault,pushed,live,ran,first⟩ | panics
    · refine .inl ⟨stored,pushed,iff_of_false ?_ not_false,ran⟩
      rintro rfl
      cases count
    · have refused : Refused entry := by
        rcases (refusedIn_cons ..).mp failed with refused | ⟨_,_,before,last,after,same,_⟩
        · exact refused
        · cases before <;> cases same
      have none : pushed = [] := by
        refine first.mpr ?_
        rintro _ ⟨⟩
        exact refused
      subst none
      exact .inr (.inl ⟨failed,fault,[],_,live,ran,fun start => and_iff_right rfl⟩)
    · exact .inr (.inr panics)
  | appendEntries entries =>
    rcases batchAppendEntries_cases entries s with
      ⟨stored,pushed,count,ran⟩ | ⟨failed,fault,pushed,live,ran,first⟩ | panics
    · refine .inl ⟨stored,pushed,?_,ran⟩
      rw [←List.length_eq_zero_iff,count,List.length_eq_zero_iff]
      rfl
    · refine .inr (.inl ⟨failed,fault,pushed,_,live,ran,?_⟩)
      intro start
      simp only [Untouched,←first]
      constructor
      · rintro ⟨rfl,same⟩
        exact ⟨same,rfl⟩
      · rintro ⟨same,rfl⟩
        exact ⟨rfl,same⟩
    · exact .inr (.inr panics)
  | appendOnPrefix fromIdx entries =>
    by_cases fits : fromIdx+entries.length < 2^64
    · obtain ⟨cut,clear,opened⟩ := appendOnPrefix_opens s entries fits
      rw [opened]
      rcases batchAppendEntries_cases entries (s.gather cut fromIdx) with
        ⟨stored,pushed,count,ran⟩ | ⟨failed,fault,pushed,live,ran,first⟩ | ⟨unfit,sound,next,ran⟩
      · refine .inl ⟨⟨fits,stored⟩,cut++pushed,?_,by rw [ran,gather_gather]; rfl⟩
        rw [List.append_eq_nil_iff,clear,←List.length_eq_zero_iff,count]
        simp only [Quiet,←List.length_eq_zero_iff]
        omega
      · refine .inr (.inl ⟨⟨fits,failed⟩,fault,cut++pushed,_,live,by rw [ran,gather_gather],?_⟩)
        intro start
        simp only [Untouched,List.append_eq_nil_iff,clear,←first,gather]
        constructor
        · rintro ⟨⟨short,rfl⟩,same⟩
          exact ⟨same,short,rfl⟩
        · rintro ⟨same,short,rfl⟩
          exact ⟨⟨short,rfl⟩,same⟩
      · exact .inr (.inr ⟨fun all => unfit all.2,fun all => sound all.2,next,ran⟩)
    · refine .inr (.inr ⟨fun all => fits all.1,fun all => fits all.1,s,?_⟩)
      simp only [batch,batchAppendOnPrefix,checkedAdd,if_neg fits]

-- The operations gathered one after the other, each from the next key the last one left.
def AllAccepted (key : Nat) : List (StorageOp T S) → Prop
  | [] => True
  | op::rest => Accepted key op ∧ AllAccepted (Backends.nextKey key op) rest

def AllQuiet (key : Nat) : List (StorageOp T S) → Prop
  | [] => True
  | op::rest => Quiet key op ∧ AllQuiet (Backends.nextKey key op) rest

-- Where a refused operation is met, nothing is gathered yet and the next key is
-- where it was; and a batch the database refuses held nothing from before, from
-- operations that in the end leave the next key alone.
structure Clean (written : Bool) (s : PersistentStorage T S) (ops : List (StorageOp T S)) : Prop where
  refused : ∀ before op after, ops = before++op::after → AllAccepted s.nextLogKey before →
    Refuses (before.foldl Backends.nextKey s.nextLogKey) op →
    AllQuiet s.nextLogKey before ∧ Untouched s.nextLogKey (before.foldl Backends.nextKey s.nextLogKey) op
  unwritten : written = false → AllAccepted s.nextLogKey ops →
    s.writeBatch = [] ∧ ops.foldl Backends.nextKey s.nextLogKey = s.nextLogKey

-- A call that returns an error leaves the storage as it was.
def RollsBack (call : StorageCall (PersistentStorage T S) Unit) (s : PersistentStorage T S) : Prop :=
  ∀ fault, (call s).1 = .error fault → fault ≠ .panic → (call s).2 = s

omit [Bincode T] [Bincode (Option S)] [Bincode Ballot] [Bincode (Option StopSign)] in
-- A batch that the database refuses takes what was queued before along.
theorem emptied_iff {start s : PersistentStorage T S} (since : s = start.gather queued s.nextLogKey) :
    {s with writeBatch:=[]} = start ↔ start.writeBatch = [] ∧ s.nextLogKey = start.nextLogKey := by
  constructor
  · intro same
    have key := congrArg nextLogKey same
    exact ⟨(congrArg writeBatch same).symm,key⟩
  · rintro ⟨none,same⟩
    rw [since,gather,same]
    rcases start with ⟨db,batch,key⟩
    cases none
    rfl

-- The call from the middle of a transaction, measured against where it began.
theorem transaction_iff (written : Bool) (ops : List (StorageOp T S)) (start s : PersistentStorage T S)
    (queued : List BatchOp) (since : s = start.gather queued s.nextLogKey) :
    (∀ fault, (tryWriteAtomically written ops s).1 = .error fault → fault ≠ .panic →
      (tryWriteAtomically written ops s).2 = start) ↔
    (∀ before op after, ops = before++op::after → AllAccepted s.nextLogKey before →
      Refuses (before.foldl Backends.nextKey s.nextLogKey) op →
      (queued = [] ∧ AllQuiet s.nextLogKey before) ∧
        Untouched start.nextLogKey (before.foldl Backends.nextKey s.nextLogKey) op) ∧
    (written = false → AllAccepted s.nextLogKey ops →
      start.writeBatch = [] ∧ ops.foldl Backends.nextKey s.nextLogKey = start.nextLogKey) := by
  induction ops generalizing s queued with
  | nil =>
    cases written with
    | true =>
      refine iff_of_true ?_ ⟨splits_nil,fun refused => nomatch refused⟩
      intro fault failed
      cases failed
    | false =>
      constructor
      · intro rolled
        refine ⟨splits_nil,fun _ _ => (emptied_iff since).mp ?_⟩
        exact rolled .backend rfl (fun same => nomatch same)
      · rintro ⟨_,unwritten⟩ _ _ _
        exact (emptied_iff since).mpr (unwritten rfl trivial)
  | cons op rest ih =>
    simp only [tryWriteAtomically]
    rw [splits_cons]
    rcases batch_cases op s with ⟨accepted,pushed,quiet,ran⟩ | ⟨refuses,fault,pushed,last,live,ran,untouched⟩ | ⟨unfit,sound,next,ran⟩
    · simp only [ran]
      rw [ih (s.gather pushed (Backends.nextKey s.nextLogKey op)) (queued++pushed) (by rw [since,gather_gather]; rfl)]
      refine and_congr ⟨?_,?_⟩ ⟨?_,?_⟩
      · intro later
        refine ⟨fun _ refuses => absurd refuses accepted.not_refuses,?_⟩
        intro before other after same allAccepted refuses
        obtain ⟨⟨none,others⟩,rest⟩ := later before other after same allAccepted.2 refuses
        obtain ⟨first,second⟩ := List.append_eq_nil_iff.mp none
        exact ⟨⟨first,quiet.mp second,others⟩,rest⟩
      · rintro ⟨_,whole⟩ before other after same allAccepted refuses
        obtain ⟨⟨none,first,others⟩,rest⟩ := whole before other after same ⟨accepted,allAccepted⟩ refuses
        exact ⟨⟨List.append_eq_nil_iff.mpr ⟨none,quiet.mpr first⟩,others⟩,rest⟩
      · exact fun later refused all => later refused all.2
      · exact fun whole refused all => whole refused ⟨accepted,all⟩
    · simp only [ran]
      have returned : (∀ other, (Except.error fault : StorageResult Unit) = .error other → other ≠ .panic →
          s.gather pushed last = start) ↔ queued = [] ∧ pushed = [] ∧ last = start.nextLogKey := by
        rw [since,gather_gather,gather_eq_self,List.append_eq_nil_iff,and_assoc]
        exact ⟨fun rolled => rolled fault rfl live,fun same _ _ _ => same⟩
      rw [returned,untouched start.nextLogKey]
      have unfit : ¬ Accepted s.nextLogKey op := fun accepted => accepted.not_refuses refuses
      constructor
      · rintro ⟨none,fine⟩
        refine ⟨⟨fun _ _ => ⟨⟨none,trivial⟩,fine⟩,?_⟩,fun _ all => absurd all.1 unfit⟩
        exact fun before other after _ accepted => absurd accepted.1 unfit
      · rintro ⟨⟨here,_⟩,_⟩
        obtain ⟨⟨none,_⟩,fine⟩ := here trivial refuses
        exact ⟨none,fine⟩
    · simp only [ran]
      refine iff_of_true ?_ ⟨⟨fun _ refuses => absurd refuses sound,?_⟩,fun _ accepted => absurd accepted.1 unfit⟩
      · rintro _ ⟨⟩ live
        exact absurd rfl live
      · exact fun before other after _ accepted => absurd accepted.1 unfit

theorem writeAtomically_rollsBack_iff (written : Bool) (ops : List (StorageOp T S)) (s : PersistentStorage T S) :
    RollsBack (tryWriteAtomically written ops) s ↔ Clean written s ops := by
  refine (transaction_iff written ops s s [] (gather_nothing s).symm).trans ⟨?_,?_⟩
  · rintro ⟨refused,unwritten⟩
    refine ⟨?_,unwritten⟩
    intro before op after same accepted refuses
    obtain ⟨⟨_,quiet⟩,rest⟩ := refused before op after same accepted refuses
    exact ⟨quiet,rest⟩
  · rintro ⟨refused,unwritten⟩
    refine ⟨?_,unwritten⟩
    intro before op after same accepted refuses
    obtain ⟨quiet,rest⟩ := refused before op after same accepted refuses
    exact ⟨⟨rfl,quiet⟩,rest⟩

end Operations

section Appends
variable [Bincode T]

-- Only the first entry is refused, and only nothing at all is handed to a
-- database that does not take it.
structure CleanAppend (written : Bool) (s : PersistentStorage T S) (entries : List T) : Prop where
  refused : ∀ before entry after, entries = before++entry::after → Storable s.nextLogKey before → Refused entry → before = []
  unwritten : written = false → Storable s.nextLogKey entries → entries = []

theorem appendEntries_rollsBack_iff (written : Bool) (entries : List T) (s : PersistentStorage T S) :
    RollsBack (tryAppendEntries written entries) s ↔ CleanAppend written s entries := by
  have moved (key : Nat) : {s with nextLogKey:=key} = s ↔ key = s.nextLogKey := by
    constructor
    · intro same
      exact congrArg nextLogKey same
    · rintro rfl
      rfl
  unfold RollsBack tryAppendEntries
  rcases putEntries_cases entries s.nextLogKey [] with
    ⟨stored,pushed,_,ran⟩ | ⟨failed,fault,pushed,live,ran,first⟩ | ⟨unfit,sound,_,ran⟩
  · simp only [ran]
    have unrefused : ∀ before entry after, entries = before++entry::after → Storable s.nextLogKey before → Refused entry →
        before = [] := by
      intro before entry after same prefixed refused
      exact absurd ⟨before,entry,after,same,prefixed,refused⟩ stored.not_refusedIn
    cases written with
    | true =>
      refine iff_of_true ?_ ⟨unrefused,fun refused => nomatch refused⟩
      intro fault failed
      cases failed
    | false =>
      constructor
      · intro rolled
        have key := (moved _).mp (rolled .backend rfl (fun same => nomatch same))
        exact ⟨unrefused,fun _ _ => List.length_eq_zero_iff.mp (Nat.add_eq_left.mp key)⟩
      · intro clean _ _ _
        refine (moved _).mpr ?_
        rw [clean.unwritten rfl stored,List.length_nil,Nat.add_zero]
  · simp only [ran]
    have returned : (∀ other, (Except.error fault : StorageResult Unit) = .error other → other ≠ .panic →
        {s with nextLogKey:=s.nextLogKey+pushed.length} = s) ↔ ∀ entry ∈ entries.head?, Refused entry := by
      rw [moved,Nat.add_eq_left,List.length_eq_zero_iff,←first]
      exact ⟨fun rolled => rolled fault rfl live,fun same _ _ _ => same⟩
    rw [returned]
    constructor
    · intro head
      refine ⟨?_,fun _ stored => absurd failed stored.not_refusedIn⟩
      intro before entry after same prefixed refused
      cases before with
      | nil => rfl
      | cons other before =>
        subst same
        exact absurd (head other rfl) ((storable_cons ..).mp prefixed).1.not_refused
    · intro clean
      obtain ⟨before,entry,after,same,prefixed,refused⟩ := failed
      cases clean.refused before entry after same prefixed refused
      subst same
      rintro _ ⟨⟩
      exact refused
  · simp only [ran]
    refine iff_of_true ?_ ⟨?_,fun _ stored => absurd stored unfit⟩
    · rintro _ ⟨⟩ live
      exact absurd rfl live
    · intro before entry after same prefixed refused
      exact absurd ⟨before,entry,after,same,prefixed,refused⟩ sound

-- When the two calls leave the storage as it was, should they return an error.
theorem rollsBack_iff [Bincode (Option S)] [Bincode Ballot] [Bincode (Option StopSign)] (written : Bool)
    (s : PersistentStorage T S) :
    (∀ ops : List (StorageOp T S), RollsBack (tryWriteAtomically written ops) s ↔ Clean written s ops) ∧
    (∀ entries : List T, RollsBack (tryAppendEntries written entries) s ↔ CleanAppend written s entries) :=
  ⟨fun ops => writeAtomically_rollsBack_iff written ops s,fun entries => appendEntries_rollsBack_iff written entries s⟩

end Appends

section Sample

-- Entries of which one is too large to be written.
inductive Parcel where
  | word (n : UInt8)
  | oversized
  deriving DecidableEq

instance bincodeParcel : Bincode Parcel where
  serialize
    | .word n => .ok [n]
    | .oversized => .error .backend
  deserialize bytes := .ok (bytes.head?.elim .oversized .word)

def emptyParcels : PersistentStorage Parcel (List UInt8) := ⟨{},[],0⟩

-- The decided index of a transaction that failed is stored by the next one.
theorem failed_transaction_commits :
    ¬ RollsBack (tryWriteAtomically true [.setDecidedIndex 1,.appendEntry .oversized]) emptyParcels ∧
    ¬ RollsBack (tryAppendEntries true [.word 7,.oversized]) emptyParcels ∧
    (let failed := tryWriteAtomically true [.setDecidedIndex 1,.appendEntry .oversized] emptyParcels
      let later := tryWriteAtomically true [] failed.2
      failed.1 = .error .backend ∧ later.1 = .ok () ∧ emptyParcels.getDecidedIdx = .ok 0 ∧ later.2.getDecidedIdx = .ok 1) := by
  refine ⟨?_,?_,rfl,rfl,rfl,rfl⟩
  · intro rolled
    have same := congrArg (fun s => s.writeBatch.length) (rolled .backend rfl (fun same => nomatch same))
    exact absurd same (by decide)
  · intro rolled
    have same := congrArg nextLogKey (rolled .backend rfl (fun same => nomatch same))
    exact absurd same (by decide)

end Sample
end PersistentStorage
end OmniPaxosKV

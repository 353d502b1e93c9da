import OmniPaxosKV.LruCache

-- A serialized cache is its entries. The capacity of each of its two halves is
-- not among them and is set anew from their number.
namespace OmniPaxosKV

-- What a format carries: the pairs of both halves, each in order, and the plain fields.
structure Serialized (F E : Type) where
  encoder : List (F × E)
  decoder : List (E × F)
  encoding : E
  size : Nat

namespace LRUniCache
variable {L : Type → Type → Type} [Lru L] {F E : Type} [DecidableEq F] [DecidableEq E] [IncrementByOne E]

-- The least recent entry first.
def serializeEntries (l : L K V) : List (K × V) := (Lru.iter l).reverse

-- The length that the format reports is taken as the capacity, and none may be zero.
def visitSeq [DecidableEq K] (sizeHint : Option Nat) (entries : List (K × V)) : Option (L K V) :=
  let size := sizeHint.getD 255
  if size = 0 then none else some (entries.foldl (fun l entry => Lru.push entry.1 entry.2 l) (Lru.new size))

omit [DecidableEq F] [DecidableEq E] [IncrementByOne E] in
def serialize (c : LRUniCache L F E) : Serialized F E :=
  ⟨serializeEntries c.encoder,serializeEntries c.decoder,c.encoding,c.size⟩

-- Both sequences come with their lengths.
omit [IncrementByOne E] in
def deserialize (s : Serialized F E) : Option (LRUniCache L F E) := do
  let encoder ← visitSeq (some s.encoder.length) s.encoder
  let decoder ← visitSeq (some s.decoder.length) s.decoder
  return ⟨encoder,decoder,s.encoding,s.size⟩

inductive Call (F E : Type) where
  | tryEncode (field : F)
  | decode (result : MaybeEncoded F E)

-- What a call returns: an encoded field or a decoded one.
def call : Call F E → LRUniCache L F E → Option ((MaybeEncoded F E ⊕ F) × LRUniCache L F E)
  | .tryEncode field,c => (tryEncode field c).map fun (result,c) => (.inl result,c)
  | .decode result,c => (decode result c).map fun (field,c) => (.inr field,c)

-- Every cache that comes about, on either side of a hand-over or of the network.
inductive Reachable : LRUniCache L F E → Prop where
  | new : new size = some c → Reachable c
  | call : Reachable c → call request c = some (result,next) → Reachable next
  | clone : Reachable c → clone c = some next → Reachable next
  | deserialize : Reachable c → deserialize (serialize c) = some next → Reachable next

-- The same results, or the same panic, on every later sequence of calls.
def BehavesAs (c d : LRUniCache L F E) : Prop :=
  ∀ calls, (Transducer.feed call calls c).map Prod.fst = (Transducer.feed call calls d).map Prod.fst

-- Both halves have entries; and no entry comes in any more but for another one,
-- as the codes are used up, or the decoder is full to its capacity and the encoder
-- is too or has every value there is.
structure Settled (c : LRUniCache L F E) : Prop where
  encoder : Lru.len c.encoder ≠ 0
  decoder : Lru.len c.decoder ≠ 0
  room : IncrementByOne.add c.encoding IncrementByOne.one = none ∨
    (Lru.len c.encoder = Lru.cap c.encoder ∨ ∀ field, field ∈ (Lru.iter c.encoder).map Prod.fst) ∧
      Lru.len c.decoder = Lru.cap c.decoder

variable [LawfulLru L]

section Lists
variable {K V : Type} [DecidableEq K]

theorem visitSeq_iter (l : L K V) (some : Lru.len l ≠ 0) :
    ∃ m : L K V, visitSeq (.some (serializeEntries l).length) (serializeEntries l) = .some m ∧
      Lru.iter m = Lru.iter l ∧ Lru.cap m = Lru.len l := by
  have length : (serializeEntries l).length = Lru.len l := by
    rw [serializeEntries,List.length_reverse,LawfulLru.len_iter]
  have distinct : ((serializeEntries l).map Prod.fst).Nodup := by
    rw [serializeEntries,List.map_reverse]
    exact List.nodup_reverse.mpr (LawfulLru.keys l)
  have empty : Lru.iter (Lru.new (Lru.len l) : L K V) = [] := LawfulLru.new_iter _
  obtain ⟨iter,cap⟩ := Lru.foldl_push (serializeEntries l) (Lru.new (Lru.len l)) distinct
    (fun _ _ => by rw [empty]; exact List.not_mem_nil)
    (by rw [empty,LawfulLru.new_cap,length,List.length_nil,Nat.zero_add])
  refine ⟨_,?_,?_,cap.trans (LawfulLru.new_cap _)⟩
  · rw [visitSeq,length]
    exact if_neg some
  · rw [iter,empty,List.append_nil,serializeEntries,List.reverse_reverse]

theorem visitSeq_none (l : L K V) (none : Lru.len l = 0) :
    (visitSeq (some (serializeEntries l).length) (serializeEntries l) : Option (L K V)) = .none := by
  rw [visitSeq,serializeEntries,List.length_reverse,←LawfulLru.len_iter,none]
  rfl

-- The same entries in the same order, whatever the capacities.
def SameEntries (l m : L K V) : Prop := Lru.iter m = Lru.iter l

theorem SameEntries.get {l m : L K V} (same : SameEntries l m) (key : K) : (Lru.get key m).1 = (Lru.get key l).1 ∧
    SameEntries (Lru.get key l).2 (Lru.get key m).2 := by
  refine ⟨?_,?_⟩
  · rw [LawfulLru.get_value,LawfulLru.get_value,same]
  · rw [SameEntries,LawfulLru.get_iter,LawfulLru.get_iter,same]

theorem SameEntries.pop {l m : L K V} (same : SameEntries l m) : (Lru.popLru m).1 = (Lru.popLru l).1 ∧
    SameEntries (Lru.popLru l).2 (Lru.popLru m).2 := by
  refine ⟨?_,?_⟩
  · rw [LawfulLru.pop_entry,LawfulLru.pop_entry,same]
  · rw [SameEntries,LawfulLru.pop_iter,LawfulLru.pop_iter,same]

theorem SameEntries.push {l m : L K V} (same : SameEntries l m) (cap : Lru.cap m = Lru.cap l) (key : K) (value : V) :
    SameEntries (Lru.push key value l) (Lru.push key value m) := by
  rw [SameEntries,LawfulLru.push_iter,LawfulLru.push_iter,same,cap]

omit [DecidableEq K] in
theorem SameEntries.len {l m : L K V} (same : SameEntries l m) : Lru.len m = Lru.len l := by
  rw [LawfulLru.len_iter,LawfulLru.len_iter,same]

-- A call adds no entry but the one that it pushes.
theorem mem_get {l : L K V} {key : K} (member : entry ∈ Lru.iter (Lru.get key l).2) : entry ∈ Lru.iter l := by
  rw [LawfulLru.get_iter,List.mem_append] at member
  rcases member with hit | other
  · exact List.mem_of_find?_eq_some (Option.mem_toList.mp hit)
  · exact (List.mem_filter.mp other).1

theorem mem_pop {l : L K V} (member : entry ∈ Lru.iter (Lru.popLru l).2) : entry ∈ Lru.iter l := by
  rw [LawfulLru.pop_iter] at member
  exact (List.dropLast_sublist _).subset member

theorem mem_push {l : L K V} {key : K} {value : V} (member : entry ∈ Lru.iter (Lru.push key value l)) :
    entry = (key,value) ∨ entry ∈ Lru.iter l := by
  rw [LawfulLru.push_iter] at member
  rcases List.mem_cons.mp (List.mem_of_mem_take member) with first | other
  · exact .inl first
  · exact .inr (List.mem_filter.mp other).1

theorem get_keys (l : L K V) (key other : K) :
    other ∈ (Lru.iter (Lru.get key l).2).map Prod.fst ↔ other ∈ (Lru.iter l).map Prod.fst := by
  rw [LawfulLru.get_iter]
  constructor
  · intro held
    obtain ⟨entry,member,rfl⟩ := List.mem_map.mp held
    exact List.mem_map_of_mem (mem_get (by rw [LawfulLru.get_iter]; exact member))
  · intro held
    obtain ⟨entry,member,rfl⟩ := List.mem_map.mp held
    by_cases same : entry.1 = key
    · have found := (Keyed.find_iff (LawfulLru.keys l)).mpr ⟨member,same⟩
      rw [found]
      exact List.mem_map_of_mem (List.mem_append_left _ (by simp))
    · exact List.mem_map_of_mem (List.mem_append_right _ (List.mem_filter.mpr ⟨member,by simpa using same⟩))

theorem get_missing {l : L K V} {key : K} (missing : key ∉ (Lru.iter l).map Prod.fst) :
    (Lru.get key l).1 = none ∧ SameEntries l (Lru.get key l).2 := by
  have none := Keyed.find_none_iff.mpr missing
  refine ⟨?_,?_⟩
  · rw [LawfulLru.get_value,none]
    rfl
  · rw [SameEntries,LawfulLru.get_iter,none,Keyed.filter_absent missing]
    rfl

end Lists

-- What the calls do, in terms of the crate's cache.
section Calls
variable (c : LRUniCache L F E)

omit [LawfulLru L] [DecidableEq E] in
theorem tryEncode_hit (found : (Lru.get field c.encoder).1 = some encoding) :
    tryEncode field c = some (.encoded encoding,{c with encoder:=(Lru.get field c.encoder).2}) := by
  simp only [tryEncode,FieldCoder.tryEncode,InnerCache.get,Option.bind_eq_bind,Option.bind_some,found,Option.pure_def]

omit [LawfulLru L] [DecidableEq E] in
theorem tryEncode_fill (absent : (Lru.get field c.encoder).1 = none) (room : Lru.len (Lru.get field c.encoder).2 ≠ c.size) :
    tryEncode field c = (IncrementByOne.add c.encoding IncrementByOne.one).map fun added =>
      (.notEncoded field,{c with encoder:=Lru.push field added (Lru.get field c.encoder).2,encoding:=added}) := by
  simp only [tryEncode,FieldCoder.tryEncode,InnerCache.get,InnerCache.len,InnerCache.insert,Option.bind_eq_bind,Option.bind_some,
    absent,if_neg room,Option.pure_def]
  cases IncrementByOne.add c.encoding IncrementByOne.one <;> rfl

omit [LawfulLru L] [DecidableEq E] in
theorem tryEncode_full (absent : (Lru.get field c.encoder).1 = none) (full : Lru.len (Lru.get field c.encoder).2 = c.size) :
    tryEncode field c = (Lru.popLru (Lru.get field c.encoder).2).1.map fun popped =>
      (.notEncoded field,{c with encoder:=Lru.push field popped.2 (Lru.popLru (Lru.get field c.encoder).2).2}) := by
  simp only [tryEncode,FieldCoder.tryEncode,InnerCache.get,InnerCache.len,InnerCache.insert,InnerCache.evictValue,
    Option.bind_eq_bind,Option.bind_some,absent,if_pos full,Option.pure_def]
  rcases Lru.popLru (Lru.get field c.encoder).2 with ⟨_ | ⟨_,_⟩,_⟩ <;> rfl

omit [LawfulLru L] [DecidableEq E] in
-- A value that is not found is sent as it is.
theorem tryEncode_plain {c next : LRUniCache L F E} (absent : (Lru.get field c.encoder).1 = none)
    (ran : tryEncode field c = some (result,next)) : result = .notEncoded field := by
  by_cases full : Lru.len (Lru.get field c.encoder).2 = c.size
  · obtain ⟨_,_,same⟩ := Option.map_eq_some_iff.mp ((tryEncode_full c absent full).symm.trans ran)
    cases same
    rfl
  · obtain ⟨_,_,same⟩ := Option.map_eq_some_iff.mp ((tryEncode_fill c absent full).symm.trans ran)
    cases same
    rfl

omit [LawfulLru L] [DecidableEq F] in
theorem decode_code (encoding : E) : decode (.encoded encoding) c = (Lru.get encoding c.decoder).1.map fun field =>
    (field,{c with decoder:=(Lru.get encoding c.decoder).2}) := by
  simp only [decode,FieldCoder.decode,InnerCache.get,Option.bind_eq_bind,Option.bind_some,Option.pure_def]
  cases (Lru.get encoding c.decoder).1 <;> rfl

omit [LawfulLru L] [DecidableEq F] in
theorem decode_fill (field : F) (room : Lru.len c.decoder ≠ c.size) :
    decode (.notEncoded field) c = (IncrementByOne.add c.encoding IncrementByOne.one).map fun added =>
      (field,{c with decoder:=Lru.push added field c.decoder,encoding:=added}) := by
  simp only [decode,FieldCoder.decode,InnerCache.len,InnerCache.insert,if_neg room,Option.bind_eq_bind,Option.pure_def]
  cases IncrementByOne.add c.encoding IncrementByOne.one <;> rfl

omit [LawfulLru L] [DecidableEq F] in
theorem decode_full (field : F) (full : Lru.len c.decoder = c.size) :
    decode (.notEncoded field) c = (Lru.popLru c.decoder).1.map fun popped =>
      (field,{c with decoder:=Lru.push popped.1 field (Lru.popLru c.decoder).2}) := by
  simp only [decode,FieldCoder.decode,InnerCache.len,InnerCache.insert,InnerCache.evictKey,if_pos full,Option.bind_eq_bind,
    Option.pure_def]
  rcases Lru.popLru c.decoder with ⟨_ | ⟨_,_⟩,_⟩ <;> rfl

end Calls

section Reached
variable [EncodedInteger E]

def Issued (n : Nat) (encoding : E) : Prop := ∃ k, k ≤ n ∧ encoding = EncodedInteger.code k

-- Neither half is larger than the cache, and no code in them is above the last one issued.
structure Bounded (n : Nat) (c : LRUniCache L F E) : Prop where
  encoderCap : Lru.cap c.encoder ≤ c.size
  decoderCap : Lru.cap c.decoder ≤ c.size
  last : n ≤ EncodedInteger.largest E
  encoding : c.encoding = EncodedInteger.code n
  encoder : ∀ entry ∈ Lru.iter c.encoder, Issued n entry.2
  decoder : ∀ entry ∈ Lru.iter c.decoder, Issued n entry.1

omit [DecidableEq F] [DecidableEq E] [LawfulLru L] in
theorem Issued.mono {encoding : E} (issued : Issued n encoding) (below : n ≤ m) : Issued m encoding := by
  obtain ⟨k,within,same⟩ := issued
  exact ⟨k,Nat.le_trans within below,same⟩

omit [DecidableEq F] [DecidableEq E] [LawfulLru L] in
-- A code issued next is above the last one, and was not issued before.
theorem Bounded.added {c : LRUniCache L F E} {next : E} (bounded : Bounded n c)
    (added : IncrementByOne.add c.encoding IncrementByOne.one = some next) :
    n+1 ≤ EncodedInteger.largest E ∧ next = EncodedInteger.code (n+1) ∧ ¬ Issued n next := by
  have below : n+1 ≤ EncodedInteger.largest E := by
    by_contra past
    have last : n = EncodedInteger.largest E := by have within := bounded.last; omega
    rw [bounded.encoding,last,EncodedInteger.code_largest] at added
    cases added
  rw [bounded.encoding,EncodedInteger.code_succ n below] at added
  cases added
  refine ⟨below,rfl,?_⟩
  rintro ⟨k,within,same⟩
  have equal := EncodedInteger.code_injective (n+1) k below (by omega) same
  omega

omit [DecidableEq E] in
theorem Bounded.tryEncode {c next : LRUniCache L F E} (bounded : Bounded n c)
    (ran : tryEncode field c = some (result,next)) : ∃ m, Bounded m next := by
  have cap := LawfulLru.get_cap field c.encoder
  cases found : (Lru.get field c.encoder).1 with
  | some encoding =>
    cases (tryEncode_hit c found).symm.trans ran
    exact ⟨n,cap.trans_le bounded.encoderCap,bounded.decoderCap,bounded.last,bounded.encoding,
      fun entry member => bounded.encoder entry (mem_get member),bounded.decoder⟩
  | none =>
    by_cases full : Lru.len (Lru.get field c.encoder).2 = c.size
    · obtain ⟨popped,left,same⟩ := Option.map_eq_some_iff.mp ((tryEncode_full c found full).symm.trans ran)
      cases same
      refine ⟨n,?_,bounded.decoderCap,bounded.last,bounded.encoding,?_,bounded.decoder⟩
      · exact (((LawfulLru.push_cap _ _ _).trans (LawfulLru.pop_cap _)).trans cap).trans_le bounded.encoderCap
      · intro entry member
        rcases mem_push member with rfl | other
        · have held : popped ∈ Lru.iter (Lru.get field c.encoder).2 := by
            rw [LawfulLru.pop_entry] at left
            exact List.mem_of_getLast? left
          exact bounded.encoder popped (mem_get held)
        · exact bounded.encoder entry (mem_get (mem_pop other))
    · obtain ⟨added,more,same⟩ := Option.map_eq_some_iff.mp ((tryEncode_fill c found full).symm.trans ran)
      cases same
      obtain ⟨below,code,_⟩ := bounded.added more
      refine ⟨n+1,((LawfulLru.push_cap _ _ _).trans cap).trans_le bounded.encoderCap,bounded.decoderCap,below,code,?_,?_⟩
      · intro entry member
        rcases mem_push member with rfl | other
        · exact ⟨n+1,Nat.le_refl _,code⟩
        · exact (bounded.encoder entry (mem_get other)).mono (Nat.le_succ n)
      · exact fun entry member => (bounded.decoder entry member).mono (Nat.le_succ n)

omit [DecidableEq F] in
theorem Bounded.decode {c next : LRUniCache L F E} (bounded : Bounded n c)
    (ran : decode result c = some (field,next)) : ∃ m, Bounded m next := by
  cases result with
  | encoded encoding =>
    obtain ⟨_,found,same⟩ := Option.map_eq_some_iff.mp ((decode_code c encoding).symm.trans ran)
    cases same
    exact ⟨n,bounded.encoderCap,(LawfulLru.get_cap encoding c.decoder).trans_le bounded.decoderCap,bounded.last,bounded.encoding,
      bounded.encoder,fun entry member => bounded.decoder entry (mem_get member)⟩
  | notEncoded plain =>
    by_cases full : Lru.len c.decoder = c.size
    · obtain ⟨popped,left,same⟩ := Option.map_eq_some_iff.mp ((decode_full c plain full).symm.trans ran)
      cases same
      refine ⟨n,bounded.encoderCap,?_,bounded.last,bounded.encoding,bounded.encoder,?_⟩
      · exact ((LawfulLru.push_cap _ _ _).trans (LawfulLru.pop_cap _)).trans_le bounded.decoderCap
      · intro entry member
        rcases mem_push member with rfl | other
        · rw [LawfulLru.pop_entry] at left
          exact bounded.decoder popped (List.mem_of_getLast? left)
        · exact bounded.decoder entry (mem_pop other)
    · obtain ⟨added,more,same⟩ := Option.map_eq_some_iff.mp ((decode_fill c plain full).symm.trans ran)
      cases same
      obtain ⟨below,code,_⟩ := bounded.added more
      refine ⟨n+1,bounded.encoderCap,(LawfulLru.push_cap _ _ _).trans_le bounded.decoderCap,below,code,?_,?_⟩
      · exact fun entry member => (bounded.encoder entry member).mono (Nat.le_succ n)
      · intro entry member
        rcases mem_push member with rfl | other
        · exact ⟨n+1,Nat.le_refl _,code⟩
        · exact (bounded.decoder entry other).mono (Nat.le_succ n)

-- A half that is filled from a list has only entries of the list.
omit [DecidableEq F] [DecidableEq E] [IncrementByOne E] [EncodedInteger E] in
theorem foldl_push_cap {K V : Type} [DecidableEq K] (entries : List α) (key : α → K) (value : α → V) (l : L K V) :
    Lru.cap (entries.foldl (fun l entry => Lru.push (key entry) (value entry) l) l) = Lru.cap l := by
  induction entries generalizing l with
  | nil => rfl
  | cons entry rest ih => exact (ih _).trans (LawfulLru.push_cap _ _ _)

omit [DecidableEq F] [DecidableEq E] [IncrementByOne E] [EncodedInteger E] in
theorem mem_foldl_push {K V : Type} [DecidableEq K] {entries : List α} {key : α → K} {value : α → V} {l : L K V} {pair : K × V}
    (member : pair ∈ Lru.iter (entries.foldl (fun l entry => Lru.push (key entry) (value entry) l) l)) :
    (∃ entry ∈ entries, pair = (key entry,value entry)) ∨ pair ∈ Lru.iter l := by
  induction entries generalizing l with
  | nil => exact .inr member
  | cons entry rest ih =>
    rcases ih member with ⟨other,held,same⟩ | pushed
    · exact .inl ⟨other,List.mem_cons_of_mem _ held,same⟩
    · rcases mem_push pushed with same | old
      · exact .inl ⟨entry,List.mem_cons_self,same⟩
      · exact .inr old

omit [DecidableEq F] in
theorem Bounded.clone {c next : LRUniCache L F E} (bounded : Bounded n c) (ran : clone c = some next) : Bounded n next := by
  unfold LRUniCache.clone at ran
  split at ran
  · cases ran
  · rename_i some
    cases ran
    refine ⟨?_,?_,bounded.last,bounded.encoding,?_,?_⟩
    · exact (LawfulLru.new_cap 1).trans_le (Nat.one_le_iff_ne_zero.mpr some)
    · exact ((foldl_push_cap _ _ _ _).trans (LawfulLru.new_cap _)).le
    · intro entry member
      rw [LawfulLru.new_iter] at member
      cases member
    · intro entry member
      rcases mem_foldl_push member with ⟨other,held,rfl⟩ | new
      · exact bounded.encoder other (List.mem_reverse.mp held)
      · rw [LawfulLru.new_iter] at new
        cases new

-- What a serialization gives back: the same entries, in halves just large enough.
structure Rebuilt (c d : LRUniCache L F E) : Prop where
  size : d.size = c.size
  encoding : d.encoding = c.encoding
  encoder : SameEntries c.encoder d.encoder
  decoder : SameEntries c.decoder d.decoder
  encoderCap : Lru.cap d.encoder = Lru.len c.encoder
  decoderCap : Lru.cap d.decoder = Lru.len c.decoder

omit [IncrementByOne E] [EncodedInteger E] in
theorem deserialize_some {c : LRUniCache L F E} (encoder : Lru.len c.encoder ≠ 0) (decoder : Lru.len c.decoder ≠ 0) :
    ∃ d, deserialize (serialize c) = some d ∧ Rebuilt c d := by
  obtain ⟨left,ran,iter,cap⟩ := visitSeq_iter c.encoder encoder
  obtain ⟨right,ran',iter',cap'⟩ := visitSeq_iter c.decoder decoder
  refine ⟨⟨left,right,c.encoding,c.size⟩,?_,rfl,rfl,iter,iter',cap,cap'⟩
  simp only [deserialize,serialize,ran,ran',Option.bind_eq_bind,Option.bind_some,Option.pure_def]

omit [IncrementByOne E] [EncodedInteger E] in
theorem deserialize_cases {c d : LRUniCache L F E} (ran : deserialize (serialize c) = some d) :
    (Lru.len c.encoder ≠ 0 ∧ Lru.len c.decoder ≠ 0) ∧ Rebuilt c d := by
  by_cases encoder : Lru.len c.encoder = 0
  · simp [deserialize,serialize,visitSeq_none c.encoder encoder] at ran
  · by_cases decoder : Lru.len c.decoder = 0
    · simp [deserialize,serialize,visitSeq_none c.decoder decoder] at ran
    · obtain ⟨d',ran',rebuilt⟩ := deserialize_some encoder decoder
      cases ran'.symm.trans ran
      exact ⟨⟨encoder,decoder⟩,rebuilt⟩

omit [DecidableEq F] [DecidableEq E] in
theorem Bounded.rebuilt {c d : LRUniCache L F E} (bounded : Bounded n c) (rebuilt : Rebuilt c d) : Bounded n d := by
  have room := LawfulLru.len_cap c.encoder
  have room' := LawfulLru.len_cap c.decoder
  rw [←LawfulLru.len_iter] at room room'
  refine ⟨?_,?_,bounded.last,rebuilt.encoding.trans bounded.encoding,?_,?_⟩
  · rw [rebuilt.encoderCap,rebuilt.size]
    exact Nat.le_trans room bounded.encoderCap
  · rw [rebuilt.decoderCap,rebuilt.size]
    exact Nat.le_trans room' bounded.decoderCap
  · rw [rebuilt.encoder]
    exact bounded.encoder
  · rw [rebuilt.decoder]
    exact bounded.decoder

omit [DecidableEq F] [DecidableEq E] in
theorem bounded_new {c : LRUniCache L F E} (made : new size = some c) : Bounded 0 c := by
  have some : ¬ size = 0 := by
    rintro rfl
    cases made
  simp only [LRUniCache.new,FieldCoder.new,InnerCache.withCapacity,if_neg some,Option.bind_eq_bind,Option.bind_some,
    Option.pure_def,Option.some.injEq] at made
  cases made
  refine ⟨(LawfulLru.new_cap _).le,(LawfulLru.new_cap _).le,Nat.zero_le _,EncodedInteger.code_zero.symm,?_,?_⟩
  all_goals
    intro entry member
    rw [LawfulLru.new_iter] at member
    cases member

theorem Bounded.call {c next : LRUniCache L F E} (bounded : Bounded n c) (ran : call request c = some (result,next)) :
    ∃ m, Bounded m next := by
  cases request with
  | tryEncode field =>
    obtain ⟨_,taken,same⟩ := Option.map_eq_some_iff.mp ran
    cases same
    exact bounded.tryEncode taken
  | decode result =>
    obtain ⟨_,taken,same⟩ := Option.map_eq_some_iff.mp ran
    cases same
    exact bounded.decode taken

theorem bounded_reachable {c : LRUniCache L F E} (reachable : Reachable c) : ∃ n, Bounded n c := by
  induction reachable with
  | new made => exact ⟨0,bounded_new made⟩
  | call _ ran ih =>
    obtain ⟨n,bounded⟩ := ih
    exact bounded.call ran
  | clone _ ran ih =>
    obtain ⟨n,bounded⟩ := ih
    exact ⟨n,bounded.clone ran⟩
  | deserialize _ ran ih =>
    obtain ⟨n,bounded⟩ := ih
    exact ⟨n,bounded.rebuilt (deserialize_cases ran).2⟩

end Reached

-- Two caches of the same entries, whose capacities differ only where no further
-- entry comes in.
structure Alike (c d : LRUniCache L F E) : Prop where
  size : d.size = c.size
  encoding : d.encoding = c.encoding
  encoder : SameEntries c.encoder d.encoder
  decoder : SameEntries c.decoder d.decoder
  encoderCaps : Lru.cap c.encoder ≤ c.size ∧ Lru.cap d.encoder ≤ c.size
  decoderCaps : Lru.cap c.decoder ≤ c.size ∧ Lru.cap d.decoder ≤ c.size
  room : IncrementByOne.add c.encoding IncrementByOne.one = none ∨
    (Lru.cap d.encoder = Lru.cap c.encoder ∨ ∀ field, field ∈ (Lru.iter c.encoder).map Prod.fst) ∧
      Lru.cap d.decoder = Lru.cap c.decoder

-- Halves of the same entries that are full to the size have the same capacity.
theorem SameEntries.caps {K V : Type} {l m : L K V} {size : Nat} (same : SameEntries l m) (full : Lru.len l = size)
    (caps : Lru.cap l ≤ size ∧ Lru.cap m ≤ size) : Lru.cap m = Lru.cap l := by
  have left := LawfulLru.len_cap l
  have right := LawfulLru.len_cap m
  rw [←LawfulLru.len_iter] at left right
  rw [same.len] at right
  omega

omit [DecidableEq E] in
theorem alike_tryEncode {c d : LRUniCache L F E} (alike : Alike c d) (field : F) :
    (tryEncode field c = none ∧ tryEncode field d = none) ∨ ∃ result c' d', tryEncode field c = some (result,c') ∧
      tryEncode field d = some (result,d') ∧ Alike c' d' := by
  obtain ⟨value,same⟩ := alike.encoder.get field
  have cap := LawfulLru.get_cap field c.encoder
  have cap' := LawfulLru.get_cap field d.encoder
  cases found : (Lru.get field c.encoder).1 with
  | some encoding =>
    refine .inr ⟨_,_,_,tryEncode_hit c found,tryEncode_hit d (value.trans found),alike.size,alike.encoding,same,alike.decoder,?_,
      alike.decoderCaps,?_⟩
    · rw [cap,cap']
      exact alike.encoderCaps
    · simp only [cap,cap',get_keys]
      exact alike.room
  | none =>
    have missing : ¬ ∀ field, field ∈ (Lru.iter c.encoder).map Prod.fst := by
      intro all
      rw [LawfulLru.get_value,Option.map_eq_none_iff,Keyed.find_none_iff] at found
      exact found (all field)
    have room : IncrementByOne.add c.encoding IncrementByOne.one = none ∨
        Lru.cap d.encoder = Lru.cap c.encoder ∧ Lru.cap d.decoder = Lru.cap c.decoder :=
      alike.room.imp_right fun ⟨caps,caps'⟩ => ⟨caps.resolve_right missing,caps'⟩
    by_cases full : Lru.len (Lru.get field c.encoder).2 = c.size
    · have full' : Lru.len (Lru.get field d.encoder).2 = d.size := by rw [same.len,full,alike.size]
      rw [tryEncode_full c found full,tryEncode_full d (value.trans found) full',same.pop.1]
      cases (Lru.popLru (Lru.get field c.encoder).2).1 with
      | none => exact .inl ⟨rfl,rfl⟩
      | some popped =>
        have caps := same.caps full (by rw [cap,cap']; exact alike.encoderCaps)
        have caps' : Lru.cap (Lru.popLru (Lru.get field d.encoder).2).2 = Lru.cap (Lru.popLru (Lru.get field c.encoder).2).2 := by
          rw [LawfulLru.pop_cap,LawfulLru.pop_cap,caps]
        refine .inr ⟨_,_,_,rfl,rfl,alike.size,alike.encoding,same.pop.2.push caps' field popped.2,alike.decoder,?_,alike.decoderCaps,?_⟩
        · simp only [LawfulLru.push_cap,LawfulLru.pop_cap,cap,cap']
          exact alike.encoderCaps
        · simp only [LawfulLru.push_cap,LawfulLru.pop_cap,cap,cap']
          exact room.imp_right fun caps => ⟨.inl caps.1,caps.2⟩
    · have full' : ¬ Lru.len (Lru.get field d.encoder).2 = d.size := by rw [same.len,alike.size]; exact full
      rw [tryEncode_fill c found full,tryEncode_fill d (value.trans found) full',alike.encoding]
      cases added : IncrementByOne.add c.encoding IncrementByOne.one with
      | none => exact .inl ⟨rfl,rfl⟩
      | some code =>
        obtain ⟨caps,caps'⟩ := room.resolve_left (by rw [added]; exact Option.some_ne_none _)
        refine .inr ⟨_,_,_,rfl,rfl,alike.size,rfl,same.push (by rw [cap,cap',caps]) field code,alike.decoder,?_,
          alike.decoderCaps,.inr ⟨.inl ?_,caps'⟩⟩
        · simp only [LawfulLru.push_cap,cap,cap']
          exact alike.encoderCaps
        · simp only [LawfulLru.push_cap,cap,cap',caps]

omit [DecidableEq F] in
theorem alike_decode {c d : LRUniCache L F E} (alike : Alike c d) (result : MaybeEncoded F E) :
    (decode result c = none ∧ decode result d = none) ∨ ∃ field c' d', decode result c = some (field,c') ∧
      decode result d = some (field,d') ∧ Alike c' d' := by
  cases result with
  | encoded encoding =>
    obtain ⟨value,same⟩ := alike.decoder.get encoding
    rw [decode_code,decode_code,value]
    cases (Lru.get encoding c.decoder).1 with
    | none => exact .inl ⟨rfl,rfl⟩
    | some field =>
      refine .inr ⟨_,_,_,rfl,rfl,alike.size,alike.encoding,alike.encoder,same,alike.encoderCaps,?_,?_⟩
      · simp only [LawfulLru.get_cap]
        exact alike.decoderCaps
      · simp only [LawfulLru.get_cap]
        exact alike.room
  | notEncoded field =>
    by_cases full : Lru.len c.decoder = c.size
    · have full' : Lru.len d.decoder = d.size := by rw [alike.decoder.len,full,alike.size]
      rw [decode_full c field full,decode_full d field full',alike.decoder.pop.1]
      cases (Lru.popLru c.decoder).1 with
      | none => exact .inl ⟨rfl,rfl⟩
      | some popped =>
        have caps := alike.decoder.caps full alike.decoderCaps
        have caps' : Lru.cap (Lru.popLru d.decoder).2 = Lru.cap (Lru.popLru c.decoder).2 := by
          rw [LawfulLru.pop_cap,LawfulLru.pop_cap,caps]
        refine .inr ⟨_,_,_,rfl,rfl,alike.size,alike.encoding,alike.encoder,alike.decoder.pop.2.push caps' popped.1 field,
          alike.encoderCaps,?_,?_⟩
        · simp only [LawfulLru.push_cap,LawfulLru.pop_cap]
          exact alike.decoderCaps
        · simp only [LawfulLru.push_cap,LawfulLru.pop_cap]
          exact alike.room
    · have full' : ¬ Lru.len d.decoder = d.size := by rw [alike.decoder.len,alike.size]; exact full
      rw [decode_fill c field full,decode_fill d field full',alike.encoding]
      cases added : IncrementByOne.add c.encoding IncrementByOne.one with
      | none => exact .inl ⟨rfl,rfl⟩
      | some code =>
        obtain ⟨caps,caps'⟩ := alike.room.resolve_left (by rw [added]; exact Option.some_ne_none _)
        refine .inr ⟨_,_,_,rfl,rfl,alike.size,rfl,alike.encoder,alike.decoder.push caps' code field,alike.encoderCaps,?_,
          .inr ⟨caps,?_⟩⟩
        · simp only [LawfulLru.push_cap]
          exact alike.decoderCaps
        · simp only [LawfulLru.push_cap,caps']

theorem Alike.behavesAs {c d : LRUniCache L F E} (alike : Alike c d) : BehavesAs c d := by
  intro calls
  refine Transducer.feed_alike Alike ?_ calls alike
  intro request c d alike
  cases request with
  | tryEncode field =>
    simp only [call]
    rcases alike_tryEncode alike field with ⟨stopped,stopped'⟩ | ⟨result,c',d',ran,ran',onward⟩
    · exact .inl ⟨by rw [stopped]; rfl,by rw [stopped']; rfl⟩
    · exact .inr ⟨.inl result,c',d',by rw [ran]; rfl,by rw [ran']; rfl,onward⟩
  | decode result =>
    simp only [call]
    rcases alike_decode alike result with ⟨stopped,stopped'⟩ | ⟨field,c',d',ran,ran',onward⟩
    · exact .inl ⟨by rw [stopped]; rfl,by rw [stopped']; rfl⟩
    · exact .inr ⟨.inr field,c',d',by rw [ran]; rfl,by rw [ran']; rfl,onward⟩

section Rebuilding
variable [EncodedInteger E] {c d : LRUniCache L F E}

omit [DecidableEq F] [DecidableEq E] in
theorem Rebuilt.alike (rebuilt : Rebuilt c d) (bounded : Bounded n c)
    (room : IncrementByOne.add c.encoding IncrementByOne.one = none ∨
      (Lru.len c.encoder = Lru.cap c.encoder ∨ ∀ field, field ∈ (Lru.iter c.encoder).map Prod.fst) ∧
        Lru.len c.decoder = Lru.cap c.decoder) : Alike c d := by
  have again := bounded.rebuilt rebuilt
  refine ⟨rebuilt.size,rebuilt.encoding,rebuilt.encoder,rebuilt.decoder,⟨bounded.encoderCap,?_⟩,⟨bounded.decoderCap,?_⟩,?_⟩
  · rw [←rebuilt.size]
    exact again.encoderCap
  · rw [←rebuilt.size]
    exact again.decoderCap
  · rw [rebuilt.encoderCap,rebuilt.decoderCap]
    exact room

end Rebuilding

section Full
variable {K V : Type} [DecidableEq K]

-- With room for one more entry the least recent one stays, and without room it goes.
theorem SameEntries.lost {l m : L K V} (same : SameEntries l m) (some : Lru.len l ≠ 0) (room : Lru.len l < Lru.cap l)
    (tight : Lru.cap m = Lru.len l) : ∃ entry ∈ Lru.iter l, ∀ key value, key ∉ (Lru.iter l).map Prod.fst →
      (Lru.get entry.1 (Lru.push key value l)).1 = .some entry.2 ∧ (Lru.get entry.1 (Lru.push key value m)).1 = none := by
  have keys := LawfulLru.keys l
  rw [LawfulLru.len_iter] at some room tight
  obtain ⟨init,entry,split⟩ := List.eq_nil_or_concat (Lru.iter l) |>.resolve_left (by
    intro empty
    rw [empty] at some
    exact some rfl)
  rw [List.concat_eq_append] at split
  have member : entry ∈ Lru.iter l := by
    rw [split]
    exact List.mem_append_right init List.mem_cons_self
  refine ⟨entry,member,?_⟩
  intro key value absent
  have other : key ≠ entry.1 := by
    rintro rfl
    exact absent (List.mem_map_of_mem member)
  constructor
  · have found := (Keyed.find_iff keys).mpr ⟨member,rfl⟩
    rw [LawfulLru.get_value,Lru.push_fresh absent room value,List.find?_cons_of_neg (by simpa using other),found]
    rfl
  · have last : entry.1 ∉ init.map Prod.fst := by
      rw [split,List.map_append,List.nodup_append] at keys
      exact fun held => keys.2.2 _ held _ List.mem_cons_self rfl
    have left : Lru.iter (Lru.push key value m) = (key,value)::init := by
      rw [LawfulLru.push_iter,same,Keyed.filter_absent absent,tight,split,List.length_append,List.length_singleton,
        List.take_succ_cons,List.take_left]
    rw [LawfulLru.get_value,left,List.find?_cons_of_neg (by simpa using other),Keyed.find_none_iff.mpr last]
    rfl

end Full

section Lost
variable {c d c' d' : LRUniCache L F E}

omit [LawfulLru L] in
theorem BehavesAs.encoded (behaves : BehavesAs c d) (field : F) :
    (tryEncode field c).map Prod.fst = (tryEncode field d).map Prod.fst := by
  have now := Transducer.alike_now behaves (.tryEncode field)
  simp only [call,Option.map_map] at now
  refine Option.map_injective (f:=(Sum.inl : _ → MaybeEncoded F E ⊕ F)) (fun _ _ => Sum.inl.inj) ?_
  rw [Option.map_map,Option.map_map]
  exact now

omit [LawfulLru L] in
theorem BehavesAs.decoded (behaves : BehavesAs c d) (result : MaybeEncoded F E) :
    (decode result c).map Prod.fst = (decode result d).map Prod.fst := by
  have now := Transducer.alike_now behaves (.decode result)
  simp only [call,Option.map_map] at now
  refine Option.map_injective (f:=(Sum.inr : _ → MaybeEncoded F E ⊕ F)) (fun _ _ => Sum.inr.inj) ?_
  rw [Option.map_map,Option.map_map]
  exact now

omit [LawfulLru L] in
theorem BehavesAs.encode (behaves : BehavesAs c d) (moved : tryEncode field c = some (result,c'))
    (moved' : tryEncode field d = some (result',d')) : BehavesAs c' d' :=
  Transducer.alike_later behaves (.tryEncode field) (by rw [call,moved]; rfl) (by rw [call,moved']; rfl)

omit [LawfulLru L] in
theorem BehavesAs.decode (behaves : BehavesAs c d) (moved : decode result c = some (field,c'))
    (moved' : decode result d = some (field',d')) : BehavesAs c' d' :=
  Transducer.alike_later behaves (.decode result) (by rw [call,moved]; rfl) (by rw [call,moved']; rfl)

variable [EncodedInteger E]

-- A decoder with room left is given a new value, and then the code of its least recent one.
theorem Rebuilt.decoder_full (rebuilt : Rebuilt c d) (bounded : Bounded n c) (some : Lru.len c.decoder ≠ 0)
    (behaves : BehavesAs c d) (next : IncrementByOne.add c.encoding IncrementByOne.one = .some added) :
    Lru.len c.decoder = Lru.cap c.decoder := by
  by_contra partly
  have within := LawfulLru.len_cap c.decoder
  have small := bounded.decoderCap
  rw [←LawfulLru.len_iter] at within
  obtain ⟨entry,_,lost⟩ := rebuilt.decoder.lost some (by omega) rebuilt.decoderCap
  have fresh : added ∉ (Lru.iter c.decoder).map Prod.fst := by
    intro held
    obtain ⟨other,member,same⟩ := List.mem_map.mp held
    exact (bounded.added next).2.2 (same ▸ bounded.decoder other member)
  have moved := decode_fill c entry.2 (by omega)
  have moved' := decode_fill d entry.2 (by rw [rebuilt.decoder.len,rebuilt.size]; omega)
  rw [next] at moved
  rw [rebuilt.encoding,next] at moved'
  obtain ⟨kept,gone⟩ := lost added entry.2 fresh
  have later := (behaves.decode moved moved').decoded (.encoded entry.1)
  rw [decode_code,decode_code,kept,gone] at later
  cases later

-- An encoder with room left is given a new value, and then its least recent one.
theorem Rebuilt.encoder_full (rebuilt : Rebuilt c d) (bounded : Bounded n c) (some : Lru.len c.encoder ≠ 0)
    (behaves : BehavesAs c d) (next : IncrementByOne.add c.encoding IncrementByOne.one = .some added)
    (missing : field ∉ (Lru.iter c.encoder).map Prod.fst) : Lru.len c.encoder = Lru.cap c.encoder := by
  by_contra partly
  have within := LawfulLru.len_cap c.encoder
  have small := bounded.encoderCap
  rw [←LawfulLru.len_iter] at within
  obtain ⟨absent,still⟩ := get_missing missing
  obtain ⟨value,same⟩ := rebuilt.encoder.get field
  have cap := LawfulLru.get_cap field c.encoder
  have cap' := LawfulLru.get_cap field d.encoder
  obtain ⟨entry,_,lost⟩ := same.lost (by rw [still.len]; exact some) (by rw [still.len]; omega)
    (by rw [cap',still.len,rebuilt.encoderCap])
  have moved := tryEncode_fill c absent (by rw [still.len]; omega)
  have moved' := tryEncode_fill d (value.trans absent) (by rw [same.len,still.len,rebuilt.size]; omega)
  rw [next] at moved
  rw [rebuilt.encoding,next] at moved'
  obtain ⟨kept,gone⟩ := lost field added (by rw [still]; exact missing)
  have later := (behaves.encode moved moved').encoded entry.1
  rw [tryEncode_hit _ kept] at later
  obtain ⟨_,again,coded⟩ := Option.map_eq_some_iff.mp later.symm
  cases coded.symm.trans (tryEncode_plain gone again)

end Lost

omit [LawfulLru L] in
theorem reachable_feed {c next : LRUniCache L F E} (reachable : Reachable c) (calls : List (Call F E))
    (ran : Transducer.feed call calls c = some (results,next)) : Reachable next := by
  induction calls generalizing c results with
  | nil =>
    cases ran
    exact reachable
  | cons request rest ih =>
    obtain ⟨_,_,_,moved,later,_⟩ := Transducer.feed_cons.mp ran
    exact ih (reachable.call moved) later

variable [EncodedInteger E]

-- Exactly the settled caches come back the same.
theorem serialized_behaves_iff {c : LRUniCache L F E} (reachable : Reachable c) :
    (∃ d, deserialize (serialize c) = some d ∧ BehavesAs c d) ↔ Settled c := by
  obtain ⟨n,bounded⟩ := bounded_reachable reachable
  constructor
  · rintro ⟨d,ran,behaves⟩
    obtain ⟨⟨encoder,decoder⟩,rebuilt⟩ := deserialize_cases ran
    refine ⟨encoder,decoder,?_⟩
    cases next : IncrementByOne.add c.encoding IncrementByOne.one with
    | none => exact .inl rfl
    | some added =>
      refine .inr ⟨?_,rebuilt.decoder_full bounded decoder behaves next⟩
      by_cases all : ∀ field, field ∈ (Lru.iter c.encoder).map Prod.fst
      · exact .inr all
      · obtain ⟨field,missing⟩ := not_forall.mp all
        exact .inl (rebuilt.encoder_full bounded encoder behaves next missing)
  · intro settled
    obtain ⟨d,ran,rebuilt⟩ := deserialize_some settled.encoder settled.decoder
    exact ⟨d,ran,(rebuilt.alike bounded settled.room).behavesAs⟩

-- One entry in each half, and room for one.
theorem serialized_behaves_full : ∃ (fresh c d : LRUniCache ListLru Nat UInt8) (results : _), new 1 = some fresh ∧
    Transducer.feed call [.tryEncode 10,.decode (.notEncoded 20)] fresh = some (results,c) ∧
    deserialize (serialize c) = some d ∧ BehavesAs c d := by
  obtain ⟨fresh,made⟩ : ∃ fresh : LRUniCache ListLru Nat UInt8, new 1 = some fresh := ⟨_,rfl⟩
  obtain ⟨results,c,ran⟩ : ∃ (results : _) (c : LRUniCache ListLru Nat UInt8),
      Transducer.feed call [.tryEncode 10,.decode (.notEncoded 20)] fresh = some (results,c) := by
    cases made
    exact ⟨_,_,rfl⟩
  have settled : Settled c := by
    cases made
    cases ran
    exact ⟨by decide,by decide,.inr ⟨.inl rfl,rfl⟩⟩
  obtain ⟨d,back,same⟩ := (serialized_behaves_iff (reachable_feed (.new made) _ ran)).mpr settled
  exact ⟨fresh,c,d,results,made,ran,back,same⟩

-- An empty cache does not come back, and one with room left in each half forgets
-- 10 as soon as 30 comes in.
theorem serialized_lost : (∃ fresh : LRUniCache ListLru Nat UInt8, new 2 = some fresh ∧
      (deserialize (serialize fresh) : Option (LRUniCache ListLru Nat UInt8)) = none) ∧
    ∃ (fresh c d : LRUniCache ListLru Nat UInt8) (results : _), new 2 = some fresh ∧
      Transducer.feed call [.tryEncode 10,.decode (.notEncoded 20)] fresh = some (results,c) ∧
      deserialize (serialize c) = some d ∧ ¬ BehavesAs c d := by
  refine ⟨⟨_,rfl,rfl⟩,_,_,_,_,rfl,rfl,rfl,?_⟩
  intro behaves
  have again := behaves [.tryEncode 30,.tryEncode 10]
  revert again
  decide

end LRUniCache
end OmniPaxosKV

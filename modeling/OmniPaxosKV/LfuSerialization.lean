import OmniPaxosKV.LfuPolicy
import OmniPaxosKV.Serialization

-- A serialized cache of the other kind carries its use counts, the order of its
-- bins, its capacity and its least count. It is the same cache when it comes back.
namespace OmniPaxosKV

-- What a format carries of one half: both hash maps as they happen to be iterated.
structure SerializedLfu (K V : Type) where
  values : List (K × ValueCounter V)
  frequencyBin : List (Nat × List K)
  capacity : Nat
  minFrequency : Nat

namespace LFUCache
variable {H : Type → Type} [LinkedHashSet H] {K V : Type}

-- An order in which the two hash maps can be iterated.
structure Iteration (K V : Type) where
  values : List (K × ValueCounter V)
  counts : List Nat

structure Iterates (order : Iteration K V) (c : LFUCache H K V) : Prop where
  values : order.values.Perm c.values
  counts : order.counts.Nodup
  made : ∀ count, count ∈ order.counts ↔ c.frequencyBin count ≠ none

def serialize (order : Iteration K V) (c : LFUCache H K V) : SerializedLfu K V where
  values := order.values
  frequencyBin := order.counts.filterMap fun count => (c.frequencyBin count).map fun bin => (count,LinkedHashSet.toList bin)
  capacity := c.capacity
  minFrequency := c.minFrequency

variable [DecidableEq K]

-- The set of a bin is filled in the order of the sequence.
def visitSeq (keys : List K) : H K := keys.foldl (fun set key => LinkedHashSet.insert key set) LinkedHashSet.empty

def deserialize (s : SerializedLfu K V) : LFUCache H K V :=
  let c : LFUCache H K V := ⟨[],.empty,s.capacity,s.minFrequency⟩
  let c := s.values.foldl (fun c entry => c.insertValue entry.1 entry.2) c
  {c with frequencyBin:=s.frequencyBin.foldl (fun bins bin => bins.insert bin.1 (visitSeq bin.2)) .empty}

variable [LawfulLinkedHashSet H] {size : Nat} {c : LFUCache H K V} {u : Usage K V}
open LawfulLinkedHashSet

-- Keys that are all different come out of the set as they went in.
theorem foldl_insert (keys : List K) (set : H K) (distinct : (LinkedHashSet.toList set++keys).Nodup) :
    LinkedHashSet.toList (keys.foldl (fun set key => LinkedHashSet.insert key set) set) = LinkedHashSet.toList set++keys := by
  induction keys generalizing set with
  | nil => exact (List.append_nil _).symm
  | cons key rest ih =>
    have absent : key ∉ (LinkedHashSet.toList set).map id := by
      rw [List.map_id]
      exact fun held => List.nodup_append.mp distinct |>.2.2 _ held _ List.mem_cons_self rfl
    have kept : (LinkedHashSet.toList set).filter (fun other => other ≠ key) = LinkedHashSet.toList set := Keyed.filter_absent absent
    have inserted : LinkedHashSet.toList (LinkedHashSet.insert key set) = LinkedHashSet.toList set++[key] := by
      rw [insert_list,kept]
    rw [List.append_cons,←inserted] at distinct
    rw [List.foldl_cons,ih _ distinct,inserted,List.append_assoc]
    rfl

theorem visitSeq_list (keys : List K) (distinct : keys.Nodup) : LinkedHashSet.toList (visitSeq keys : H K) = keys := by
  have empty : LinkedHashSet.toList (LinkedHashSet.empty : H K) = [] := empty_list
  rw [visitSeq,foldl_insert keys _ (by rw [empty]; exact distinct),empty]
  rfl

omit [LinkedHashSet H] [LawfulLinkedHashSet H] in
theorem foldl_insertValue (entries : List (K × ValueCounter V)) (c : LFUCache H K V)
    (distinct : ((entries++c.values).map Prod.fst).Nodup) : ∃ values : List (K × ValueCounter V),
      entries.foldl (fun c entry => c.insertValue entry.1 entry.2) c = {c with values:=values} ∧
      values.Perm (entries++c.values) := by
  induction entries generalizing c with
  | nil => exact ⟨c.values,rfl,.refl _⟩
  | cons entry rest ih =>
    have moved : ((rest++entry::c.values).map Prod.fst).Nodup :=
      (List.perm_middle.map Prod.fst).nodup_iff.mpr distinct
    have absent : entry.1 ∉ c.values.map Prod.fst := by
      rw [List.map_append,List.map_cons] at moved
      exact (List.nodup_cons.mp (List.nodup_append.mp moved).2.1).1
    have same : c.insertValue entry.1 entry.2 = {c with values:=entry::c.values} := by
      rw [insertValue,removeValue,Keyed.filter_absent absent]
    obtain ⟨values,built,listed⟩ := ih {c with values:=entry::c.values} moved
    refine ⟨values,?_,listed.trans List.perm_middle⟩
    rw [List.foldl_cons,same,built]

omit [DecidableEq K] [LinkedHashSet H] [LawfulLinkedHashSet H] in
theorem foldl_bins {A : Type} (bins : List (Nat × A)) (build : A → H K) (distinct : (bins.map Prod.fst).Nodup) (start : KeyMap Nat (H K))
    (count : Nat) : (bins.foldl (fun all bin => all.insert bin.1 (build bin.2)) start) count =
      ((bins.find? fun bin => bin.1 = count).map fun bin => build bin.2).or (start count) := by
  induction bins generalizing start with
  | nil => rfl
  | cons bin rest ih =>
    obtain ⟨absent,distinct⟩ := List.nodup_cons.mp distinct
    rw [List.foldl_cons,ih distinct,KeyMap.insert_apply]
    by_cases same : bin.1 = count
    · have later : (rest.find? fun other => other.1 = count) = none := Keyed.find_none_iff.mpr (same ▸ absent)
      rw [later,if_pos same.symm,List.find?_cons_of_pos (by simpa using same)]
      rfl
    · rw [if_neg (Ne.symm same),List.find?_cons_of_neg (by simpa using same)]

omit [DecidableEq K] [LawfulLinkedHashSet H] in
theorem serialize_keys {order : Iteration K V} (iterates : Iterates order c) :
    ((serialize order c).frequencyBin.map Prod.fst).Nodup := by
  rw [serialize,List.map_filterMap]
  refine iterates.counts.filterMap ?_
  intro first second count found found'
  rw [Option.map_map] at found found'
  obtain ⟨_,_,rfl⟩ := Option.mem_map.mp found
  obtain ⟨_,_,same⟩ := Option.mem_map.mp found'
  exact same.symm

omit [DecidableEq K] [LawfulLinkedHashSet H] in
theorem serialize_find {order : Iteration K V} (iterates : Iterates order c) (count : Nat) :
    ((serialize order c).frequencyBin.find? fun bin => bin.1 = count) =
      (c.frequencyBin count).map fun bin => (count,LinkedHashSet.toList bin) := by
  have keys := serialize_keys iterates
  cases made : c.frequencyBin count with
  | none =>
    refine Keyed.find_none_iff.mpr ?_
    intro held
    obtain ⟨bin,member,rfl⟩ := List.mem_map.mp held
    obtain ⟨_,_,found⟩ := List.mem_filterMap.mp member
    obtain ⟨_,some,rfl⟩ := Option.map_eq_some_iff.mp found
    cases made.symm.trans some
  | some bin =>
    refine (Keyed.find_iff keys).mpr ⟨List.mem_filterMap.mpr ⟨count,?_,?_⟩,rfl⟩
    · exact (iterates.made count).mpr (made ▸ Option.some_ne_none bin)
    · rw [made]
      rfl

-- What comes back stands for the same entries of the policy.
theorem Follows.rebuilt (follows : Follows size c u) {order : Iteration K V} (iterates : Iterates order c) :
    Follows size (deserialize (serialize order c) : LFUCache H K V) u := by
  have distinct : ((order.values++[]).map Prod.fst).Nodup := by
    rw [List.append_nil]
    exact (iterates.values.map Prod.fst).nodup_iff.mpr follows.distinct
  obtain ⟨values,built,listed⟩ := foldl_insertValue order.values (⟨[],.empty,c.capacity,c.minFrequency⟩ : LFUCache H K V) distinct
  rw [List.append_nil] at listed
  have made (count : Nat) : (deserialize (serialize order c) : LFUCache H K V).frequencyBin count =
      (c.frequencyBin count).map fun bin => visitSeq (LinkedHashSet.toList bin) := by
    refine (foldl_bins _ visitSeq (serialize_keys iterates) .empty count).trans ?_
    rw [serialize_find iterates,Option.map_map,KeyMap.empty_apply,Option.or_none]
    rfl
  have same : (deserialize (serialize order c) : LFUCache H K V).values = values ∧
      (deserialize (serialize order c) : LFUCache H K V).capacity = c.capacity ∧
      (deserialize (serialize order c) : LFUCache H K V).minFrequency = c.minFrequency := by
    simp only [deserialize,serialize,built,and_self]
  have none (count : Nat) : (deserialize (serialize order c) : LFUCache H K V).frequencyBin count = none ↔
      c.frequencyBin count = none := by
    rw [made,Option.map_eq_none_iff]
  refine ⟨⟨?_,?_,follows.keys,follows.used,?_⟩,?_,follows.least,follows.room,follows.full,?_,?_⟩
  · exact same.2.1.trans follows.capacity
  · rw [same.1]
    exact listed.trans (iterates.values.trans follows.values)
  · intro count
    rw [←follows.bins count,bin,bin,made]
    cases found : c.frequencyBin count with
    | none => rfl
    | some bin =>
      have listed : c.bin count = LinkedHashSet.toList bin := by rw [LFUCache.bin,found]; rfl
      refine visitSeq_list _ ?_
      rw [←listed,follows.bins]
      exact (List.filter_sublist.map Cell.key).nodup follows.keys
  · exact same.2.2.trans follows.lowest
  · exact fun unset count => (none count).mpr (follows.unmade unset count)
  · exact fun set unmade => follows.made set ((none _).mp unmade)

-- Two caches that stand for the same entries.
def SameUses (c d : LFUCache H K V) : Prop := ∃ size u, Follows size c u ∧ Follows size d u

theorem SameUses.call {c d : LFUCache H K V} (same : SameUses c d) (request : LfuRequest K V) :
    (c.call request = none ∧ d.call request = none) ∨ ∃ reply c' d',
      c.call request = some (reply,c') ∧ d.call request = some (reply,d') ∧ SameUses c' d' := by
  obtain ⟨size,u,left,right⟩ := same
  rcases left.call request with ⟨stopped,policy⟩ | ⟨reply,c',u',moved,policy,onward⟩
  · rcases right.call request with ⟨stopped',_⟩ | ⟨_,_,_,_,policy',_⟩
    · exact .inl ⟨stopped,stopped'⟩
    · cases policy.symm.trans policy'
  · rcases right.call request with ⟨_,policy'⟩ | ⟨_,d',_,moved',policy',onward'⟩
    · cases policy.symm.trans policy'
    · cases policy.symm.trans policy'
      exact .inr ⟨reply,c',d',moved,moved',size,u',onward,onward'⟩

-- What both stop at, or both answer alike and go on from the same entries.
def Agree {A : Type} (x y : Option (A × LFUCache H K V)) : Prop :=
  (x = none ∧ y = none) ∨ ∃ answer c' d', x = some (answer,c') ∧ y = some (answer,d') ∧ SameUses c' d'

omit [DecidableEq K] [LawfulLinkedHashSet H] in
theorem agree_of_map {A : Type} {f : A → LfuReply K V} (injective : Function.Injective f) {x y : Option (A × LFUCache H K V)}
    (alike : Agree (x.map fun (answer,c) => (f answer,c)) (y.map fun (answer,c) => (f answer,c))) : Agree x y := by
  rcases alike with ⟨stopped,stopped'⟩ | ⟨_,_,_,moved,moved',same⟩
  · exact .inl ⟨Option.map_eq_none_iff.mp stopped,Option.map_eq_none_iff.mp stopped'⟩
  · obtain ⟨⟨answer,c'⟩,ran,equal⟩ := Option.map_eq_some_iff.mp moved
    obtain ⟨⟨answer',d'⟩,ran',equal'⟩ := Option.map_eq_some_iff.mp moved'
    cases equal
    simp only [Prod.mk.injEq] at equal'
    obtain ⟨answers,rfl⟩ := equal'
    cases injective answers
    exact .inr ⟨answer,_,_,ran,ran',same⟩

theorem SameUses.get {c d : LFUCache H K V} (same : SameUses c d) (key : K) : Agree (c.get key) (d.get key) :=
  agree_of_map (fun _ _ => LfuReply.value.inj) (same.call (.get key))

theorem SameUses.evictKey {c d : LFUCache H K V} (same : SameUses c d) :
    Agree (InnerCache.evictKey c) (InnerCache.evictKey d) := by
  have agree : Agree c.evictAndReturnKey d.evictAndReturnKey :=
    agree_of_map (fun _ _ => LfuReply.key.inj) (same.call .evictAndReturnKey)
  simp only [InnerCache.evictKey]
  rcases agree with ⟨stopped,stopped'⟩ | ⟨answer,c',d',moved,moved',onward⟩
  · exact .inl (by simp [stopped,stopped'])
  · cases answer with
    | none => exact .inl (by simp [moved,moved'])
    | some key => exact .inr ⟨key,c',d',by rw [moved],by rw [moved'],onward⟩

theorem SameUses.evictValue {c d : LFUCache H K V} (same : SameUses c d) :
    Agree (InnerCache.evictValue c) (InnerCache.evictValue d) := by
  have agree : Agree c.evictAndReturnValue d.evictAndReturnValue :=
    agree_of_map (fun _ _ => LfuReply.value.inj) (same.call .evictAndReturnValue)
  simp only [InnerCache.evictValue]
  rcases agree with ⟨stopped,stopped'⟩ | ⟨answer,c',d',moved,moved',onward⟩
  · exact .inl (by simp [stopped,stopped'])
  · cases answer with
    | none => exact .inl (by simp [moved,moved'])
    | some value => exact .inr ⟨value,c',d',by rw [moved],by rw [moved'],onward⟩

theorem SameUses.set {c d : LFUCache H K V} (same : SameUses c d) (key : K) (value : V) :
    ∃ c' d', c.set key value = some c' ∧ d.set key value = some d' ∧ SameUses c' d' := by
  obtain ⟨size,u,left,right⟩ := same
  obtain ⟨c',stored,ran,policy,onward⟩ := left.set key value
  obtain ⟨d',stored',ran',policy',onward'⟩ := right.set key value
  cases policy.symm.trans policy'
  exact ⟨c',d',ran,ran',size,stored,onward,onward'⟩

omit [DecidableEq K] [LawfulLinkedHashSet H] in
theorem SameUses.len {c d : LFUCache H K V} (same : SameUses c d) : d.len = c.len := by
  obtain ⟨_,_,left,right⟩ := same
  rw [left.len_eq,right.len_eq]

end LFUCache

namespace LFUniCache
open LRUniCache (Call)
variable {H : Type → Type} [LinkedHashSet H] {F E : Type} [DecidableEq F] [DecidableEq E] [IncrementByOne E]

-- Both halves and the plain fields.
structure Serialized (F E : Type) where
  encoder : SerializedLfu F E
  decoder : SerializedLfu E F
  encoding : E
  size : Nat

omit [DecidableEq F] [DecidableEq E] [IncrementByOne E] in
def serialize (encoder : LFUCache.Iteration F E) (decoder : LFUCache.Iteration E F) (c : LFUniCache H F E) : Serialized F E :=
  ⟨c.encoder.serialize encoder,c.decoder.serialize decoder,c.encoding,c.size⟩

omit [IncrementByOne E] in
def deserialize (s : Serialized F E) : LFUniCache H F E :=
  ⟨LFUCache.deserialize s.encoder,LFUCache.deserialize s.decoder,s.encoding,s.size⟩

def call : Call F E → LFUniCache H F E → Option ((MaybeEncoded F E ⊕ F) × LFUniCache H F E)
  | .tryEncode field,c => (tryEncode field c).map fun (result,c) => (.inl result,c)
  | .decode result,c => (decode result c).map fun (field,c) => (.inr field,c)

-- Every cache that comes about, on either side of a hand-over or of the network.
inductive Reachable : LFUniCache H F E → Prop where
  | new : new size = some c → Reachable c
  | call : Reachable c → call request c = some (result,next) → Reachable next
  | clone : Reachable c → order.Perm c.encoder.values → clone order c = some next → Reachable next
  | deserialize : Reachable c → LFUCache.Iterates encoder c.encoder → LFUCache.Iterates decoder c.decoder →
      Reachable (deserialize (serialize encoder decoder c))

-- The same results, or the same panic, on every later sequence of calls.
def BehavesAs (c d : LFUniCache H F E) : Prop :=
  ∀ calls, (Transducer.feed call calls c).map Prod.fst = (Transducer.feed call calls d).map Prod.fst

structure Alike (c d : LFUniCache H F E) : Prop where
  size : d.size = c.size
  encoding : d.encoding = c.encoding
  encoder : LFUCache.SameUses c.encoder d.encoder
  decoder : LFUCache.SameUses c.decoder d.decoder

variable [LawfulLinkedHashSet H] {c d : LFUniCache H F E}

omit [DecidableEq E] in
theorem alike_tryEncode (alike : Alike c d) (field : F) : (tryEncode field c = none ∧ tryEncode field d = none) ∨
    ∃ result c' d', tryEncode field c = some (result,c') ∧ tryEncode field d = some (result,d') ∧ Alike c' d' := by
  simp only [tryEncode,FieldCoder.tryEncode,InnerCache.get,InnerCache.len,InnerCache.insert,alike.size,alike.encoding]
  rcases alike.encoder.get field with ⟨stopped,stopped'⟩ | ⟨found,encoder,encoder',got,got',same⟩
  · exact .inl ⟨by rw [stopped]; rfl,by rw [stopped']; rfl⟩
  rw [got,got']
  simp only [Option.bind_eq_bind,Option.bind_some,Option.pure_def,same.len]
  cases found with
  | some encoding => exact .inr ⟨_,_,_,rfl,rfl,rfl,rfl,same,alike.decoder⟩
  | none =>
    by_cases full : encoder.len = c.size
    · simp only [if_pos full]
      rcases same.evictValue with ⟨stopped,stopped'⟩ | ⟨popped,left,left',evicted,evicted',same⟩
      · exact .inl ⟨by rw [stopped]; rfl,by rw [stopped']; rfl⟩
      · obtain ⟨next,next',stored,stored',same⟩ := same.set field popped
        refine .inr ⟨.notEncoded field,{c with encoder:=next},{c with encoder:=next',decoder:=d.decoder},?_,?_,rfl,rfl,same,
          alike.decoder⟩
        · simp only [evicted,stored,Option.bind_some]
        · simp only [evicted',stored',Option.bind_some]
    · simp only [if_neg full]
      cases IncrementByOne.add c.encoding IncrementByOne.one with
      | none => exact .inl ⟨rfl,rfl⟩
      | some added =>
        obtain ⟨next,next',stored,stored',same⟩ := same.set field added
        refine .inr ⟨.notEncoded field,{c with encoder:=next,encoding:=added},
          {c with encoder:=next',decoder:=d.decoder,encoding:=added},?_,?_,rfl,rfl,same,alike.decoder⟩
        · simp only [stored,Option.bind_some]
        · simp only [stored',Option.bind_some]

omit [DecidableEq F] in
theorem alike_decode (alike : Alike c d) (result : MaybeEncoded F E) : (decode result c = none ∧ decode result d = none) ∨
    ∃ field c' d', decode result c = some (field,c') ∧ decode result d = some (field,d') ∧ Alike c' d' := by
  simp only [decode,FieldCoder.decode,InnerCache.get,InnerCache.len,InnerCache.insert,alike.size,alike.encoding,alike.decoder.len]
  cases result with
  | encoded encoding =>
    rcases alike.decoder.get encoding with ⟨stopped,stopped'⟩ | ⟨found,decoder,decoder',got,got',same⟩
    · left
      constructor
      · simp only [stopped,Option.bind_eq_bind,Option.bind_none]
      · simp only [stopped',Option.bind_eq_bind,Option.bind_none]
    · simp only [got,got',Option.bind_eq_bind,Option.bind_some,Option.pure_def]
      cases found with
      | none => exact .inl ⟨rfl,rfl⟩
      | some field => exact .inr ⟨_,_,_,rfl,rfl,rfl,rfl,alike.encoder,same⟩
  | notEncoded field =>
    by_cases full : c.decoder.len = c.size
    · simp only [if_pos full,Option.bind_eq_bind,Option.pure_def]
      rcases alike.decoder.evictKey with ⟨stopped,stopped'⟩ | ⟨popped,left,left',evicted,evicted',same⟩
      · exact .inl ⟨by rw [stopped]; rfl,by rw [stopped']; rfl⟩
      · obtain ⟨next,next',stored,stored',same⟩ := same.set popped field
        refine .inr ⟨field,{c with decoder:=next},{c with encoder:=d.encoder,decoder:=next'},?_,?_,rfl,rfl,alike.encoder,same⟩
        · simp only [evicted,stored,Option.bind_some]
        · simp only [evicted',stored',Option.bind_some]
    · simp only [if_neg full,Option.bind_eq_bind,Option.pure_def]
      cases IncrementByOne.add c.encoding IncrementByOne.one with
      | none => exact .inl ⟨rfl,rfl⟩
      | some added =>
        obtain ⟨next,next',stored,stored',same⟩ := alike.decoder.set added field
        refine .inr ⟨field,{c with decoder:=next,encoding:=added},{c with encoder:=d.encoder,decoder:=next',encoding:=added},
          ?_,?_,rfl,rfl,alike.encoder,same⟩
        · simp only [stored,Option.bind_some]
        · simp only [stored',Option.bind_some]

theorem Alike.behavesAs (alike : Alike c d) : BehavesAs c d := by
  intro calls
  refine Transducer.feed_alike Alike ?_ calls alike
  intro request c d alike
  cases request with
  | tryEncode field =>
    simp only [call]
    rcases alike_tryEncode alike field with ⟨stopped,stopped'⟩ | ⟨result,c',d',ran,ran',onward⟩
    · exact .inl ⟨by rw [stopped]; rfl,by rw [stopped']; rfl⟩
    · exact .inr ⟨.inl result,c',d',by rw [ran]; rfl,by rw [ran']; rfl,onward⟩
  | decode result =>
    simp only [call]
    rcases alike_decode alike result with ⟨stopped,stopped'⟩ | ⟨field,c',d',ran,ran',onward⟩
    · exact .inl ⟨by rw [stopped]; rfl,by rw [stopped']; rfl⟩
    · exact .inr ⟨.inr field,c',d',by rw [ran]; rfl,by rw [ran']; rfl,onward⟩

-- Each half stands for entries of the policy, as a half is only ever used through
-- its calls.
def Policed (c : LFUniCache H F E) : Prop := LFUCache.SameUses c.encoder c.encoder ∧ LFUCache.SameUses c.decoder c.decoder

theorem Policed.call {next : LFUniCache H F E} (policed : Policed c) (ran : call request c = some (result,next)) : Policed next := by
  have alike : Alike c c := ⟨rfl,rfl,policed.1,policed.2⟩
  cases request with
  | tryEncode field =>
    obtain ⟨⟨_,_⟩,taken,same⟩ := Option.map_eq_some_iff.mp ran
    cases same
    rcases alike_tryEncode alike field with ⟨stopped,_⟩ | ⟨_,_,_,moved,moved',onward⟩
    · cases stopped.symm.trans taken
    · cases moved.symm.trans taken
      cases moved'.symm.trans taken
      exact ⟨onward.encoder,onward.decoder⟩
  | decode result =>
    obtain ⟨⟨_,_⟩,taken,same⟩ := Option.map_eq_some_iff.mp ran
    cases same
    rcases alike_decode alike result with ⟨stopped,_⟩ | ⟨_,_,_,moved,moved',onward⟩
    · cases stopped.symm.trans taken
    · cases moved.symm.trans taken
      cases moved'.symm.trans taken
      exact ⟨onward.encoder,onward.decoder⟩

omit [LawfulLinkedHashSet H] [DecidableEq F] [DecidableEq E] [IncrementByOne E] in
theorem policed_capacity {K V : Type} {size : Nat} {c : LFUCache H K V} (made : LFUCache.withCapacity size = some c) :
    LFUCache.SameUses c c := by
  have sized : 1 ≤ size := by
    by_contra none
    rw [LFUCache.withCapacity,if_pos (by omega)] at made
    cases made
  obtain ⟨_,made',follows⟩ := LFUCache.follows_new (H:=H) (K:=K) (V:=V) sized
  cases made'.symm.trans made
  exact ⟨size,_,follows,follows⟩

theorem policed_filled {K V A : Type} [DecidableEq K] (entries : List A) (key : A → K) (value : A → V) {c next : LFUCache H K V}
    (policed : LFUCache.SameUses c c) (ran : entries.foldlM (fun c entry => c.set (key entry) (value entry)) c = some next) :
    LFUCache.SameUses next next := by
  induction entries generalizing c with
  | nil =>
    cases ran
    exact policed
  | cons entry rest ih =>
    rw [List.foldlM_cons] at ran
    obtain ⟨middle,first,later⟩ := Option.bind_eq_some_iff.mp ran
    obtain ⟨c',d',moved,moved',onward⟩ := policed.set (key entry) (value entry)
    cases moved.symm.trans first
    cases moved'.symm.trans first
    exact ih onward later

theorem policed_reachable (reachable : Reachable c) : Policed c := by
  induction reachable with
  | new made =>
    obtain ⟨encoder,first,rest⟩ := Option.bind_eq_some_iff.mp made
    obtain ⟨decoder,second,last⟩ := Option.bind_eq_some_iff.mp rest
    cases last
    exact ⟨policed_capacity first,policed_capacity second⟩
  | call _ ran ih => exact ih.call ran
  | clone _ _ ran ih =>
    obtain ⟨fresh,first,rest⟩ := Option.bind_eq_some_iff.mp ran
    obtain ⟨decoder,filled,rest⟩ := Option.bind_eq_some_iff.mp rest
    obtain ⟨encoder,single,last⟩ := Option.bind_eq_some_iff.mp rest
    cases last
    exact ⟨policed_capacity single,policed_filled _ _ _ (policed_capacity first) filled⟩
  | deserialize _ encoder decoder ih =>
    obtain ⟨⟨_,_,follows,_⟩,_,_,follows',_⟩ := ih
    have left := follows.rebuilt encoder
    have right := follows'.rebuilt decoder
    exact ⟨⟨_,_,left,left⟩,_,_,right,right⟩

-- Whatever the order in which the hash maps are iterated, a cache that is sent
-- answers every later sequence of calls as the one it was made from.
theorem lfu_serialized_behaves {encoder : LFUCache.Iteration F E} {decoder : LFUCache.Iteration E F} (reachable : Reachable c)
    (iterated : LFUCache.Iterates encoder c.encoder) (iterated' : LFUCache.Iterates decoder c.decoder) :
    BehavesAs c (deserialize (serialize encoder decoder c)) := by
  obtain ⟨⟨_,_,follows,_⟩,_,_,follows',_⟩ := policed_reachable reachable
  have alike : Alike c (deserialize (serialize encoder decoder c)) :=
    ⟨rfl,rfl,⟨_,_,follows,follows.rebuilt iterated⟩,_,_,follows',follows'.rebuilt iterated'⟩
  exact alike.behavesAs

omit [LawfulLinkedHashSet H] in
theorem reachable_feed {next : LFUniCache H F E} (reachable : Reachable c) (calls : List (Call F E))
    (ran : Transducer.feed call calls c = some (results,next)) : Reachable next := by
  induction calls generalizing c results with
  | nil =>
    cases ran
    exact reachable
  | cons request rest ih =>
    obtain ⟨_,_,_,moved,later,_⟩ := Transducer.feed_cons.mp ran
    exact ih (reachable.call moved) later

-- 10 has been used twice and 20 once; the map is iterated the other way round.
theorem lfu_serialized_behaves_two : ∃ (fresh c : LFUniCache ListSet Nat UInt8) (results : _) (encoder decoder : _), new 2 = some fresh ∧
    Transducer.feed call [.tryEncode 10,.tryEncode 20,.tryEncode 10] fresh = some (results,c) ∧
    BehavesAs c (deserialize (serialize encoder decoder c)) := by
  obtain ⟨fresh,made⟩ : ∃ fresh : LFUniCache ListSet Nat UInt8, new 2 = some fresh := ⟨_,rfl⟩
  obtain ⟨results,c,ran⟩ : ∃ (results : _) (c : LFUniCache ListSet Nat UInt8),
      Transducer.feed call [.tryEncode 10,.tryEncode 20,.tryEncode 10] fresh = some (results,c) := by
    cases made
    exact ⟨_,_,rfl⟩
  have reachable := reachable_feed (.new made) _ ran
  have bins : c.encoder.frequencyBin =
      (((KeyMap.empty.insert 1 ⟨[10]⟩).insert 1 ⟨[10,20]⟩).insert 1 ⟨[20]⟩).insert 2 ⟨[10]⟩ := by
    cases made
    cases ran
    rfl
  have iterated : LFUCache.Iterates ⟨c.encoder.values.reverse,[2,1]⟩ c.encoder := by
    refine ⟨List.reverse_perm _,(by decide : [2,1].Nodup),?_⟩
    intro count
    rw [bins,KeyMap.insert_apply,KeyMap.insert_apply,KeyMap.insert_apply,KeyMap.insert_apply]
    by_cases twice : count = 2
    · simp [twice]
    · by_cases once : count = 1
      · simp [once]
      · simp [twice,once]
  have iterated' : LFUCache.Iterates ⟨[],[]⟩ c.decoder := by
    cases made
    cases ran
    exact ⟨.nil,.nil,fun count => ⟨fun member => absurd member List.not_mem_nil,fun some => absurd rfl some⟩⟩
  exact ⟨fresh,c,results,_,_,made,ran,lfu_serialized_behaves reachable iterated iterated'⟩

end LFUniCache
end OmniPaxosKV

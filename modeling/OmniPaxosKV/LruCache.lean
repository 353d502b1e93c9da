import OmniPaxosKV.UniCache

-- The field cache that gives up the value used least recently.
namespace OmniPaxosKV

-- The bounded map of the `lru` crate; `iter` goes from the most recent entry to the least.
class Lru (L : Type → Type → Type) where
  new {K V : Type} : Nat → L K V
  cap {K V : Type} : L K V → Nat
  iter {K V : Type} : L K V → List (K × V)
  len {K V : Type} : L K V → Nat
  get {K V : Type} [DecidableEq K] : K → L K V → Option V × L K V
  push {K V : Type} [DecidableEq K] : K → V → L K V → L K V
  popLru {K V : Type} [DecidableEq K] : L K V → Option (K × V) × L K V

-- What the crate documents: a hit becomes the most recent entry, a new entry comes
-- in as the most recent one, and the least recent one leaves when it has to.
class LawfulLru (L : Type → Type → Type) [Lru L] : Prop where
  new_iter {K V : Type} (cap : Nat) : Lru.iter (Lru.new cap : L K V) = []
  new_cap {K V : Type} (cap : Nat) : Lru.cap (Lru.new cap : L K V) = cap
  len_iter {K V : Type} (l : L K V) : Lru.len l = (Lru.iter l).length
  len_cap {K V : Type} (l : L K V) : (Lru.iter l).length ≤ Lru.cap l
  keys {K V : Type} (l : L K V) : ((Lru.iter l).map Prod.fst).Nodup
  get_value {K V : Type} [DecidableEq K] (key : K) (l : L K V) :
    (Lru.get key l).1 = ((Lru.iter l).find? fun entry => entry.1 = key).map Prod.snd
  get_iter {K V : Type} [DecidableEq K] (key : K) (l : L K V) : Lru.iter (Lru.get key l).2 =
    ((Lru.iter l).find? fun entry => entry.1 = key).toList++(Lru.iter l).filter fun entry => entry.1 ≠ key
  get_cap {K V : Type} [DecidableEq K] (key : K) (l : L K V) : Lru.cap (Lru.get key l).2 = Lru.cap l
  push_iter {K V : Type} [DecidableEq K] (key : K) (value : V) (l : L K V) : Lru.iter (Lru.push key value l) =
    ((key,value)::(Lru.iter l).filter fun entry => entry.1 ≠ key).take (Lru.cap l)
  push_cap {K V : Type} [DecidableEq K] (key : K) (value : V) (l : L K V) : Lru.cap (Lru.push key value l) = Lru.cap l
  pop_entry {K V : Type} [DecidableEq K] (l : L K V) : (Lru.popLru l).1 = (Lru.iter l).getLast?
  pop_iter {K V : Type} [DecidableEq K] (l : L K V) : Lru.iter (Lru.popLru l).2 = (Lru.iter l).dropLast
  pop_cap {K V : Type} [DecidableEq K] (l : L K V) : Lru.cap (Lru.popLru l).2 = Lru.cap l

-- A capacity of zero panics, and so does taking the least recent entry of none.
instance [Lru L] : InnerCache L where
  withCapacity size := if size = 0 then none else some (Lru.new size)
  len := Lru.len
  get key l := some (Lru.get key l)
  evictKey l := match Lru.popLru l with
    | (some (key,_),l) => some (key,l)
    | (none,_) => none
  evictValue l := match Lru.popLru l with
    | (some (_,value),l) => some (value,l)
    | (none,_) => none
  insert key value l := some (Lru.push key value l)

-- The wrapper around the crate's cache only carries its serialization.
abbrev LRUniCache (L : Type → Type → Type) (F E : Type) := FieldCoder L F E

namespace LRUniCache
variable {L : Type → Type → Type} [Lru L] {F E : Type} [DecidableEq F] [DecidableEq E] [IncrementByOne E]

def new (size : Nat) : Option (LRUniCache L F E) := FieldCoder.new size

omit [DecidableEq E] in
def tryEncode (field : F) (c : LRUniCache L F E) : Option (MaybeEncoded F E × LRUniCache L F E) := FieldCoder.tryEncode field c

def decode (result : MaybeEncoded F E) (c : LRUniCache L F E) : Option (F × LRUniCache L F E) := FieldCoder.decode result c

instance : FieldCache (LRUniCache L F E) F E := ⟨new,tryEncode,decode⟩

-- Only the decoder is cloned, and it is filled from the encoder, the least recent first.
omit [DecidableEq F] [IncrementByOne E] in
def clone (c : LRUniCache L F E) : Option (LRUniCache L F E) :=
  if c.size = 0 then none else
    some ⟨Lru.new 1,(Lru.iter c.encoder).reverse.foldl (fun l entry => Lru.push entry.2 entry.1 l) (Lru.new c.size),
      c.encoding,c.size⟩

end LRUniCache

namespace Lru
open LawfulLru
variable {L : Type → Type → Type} [Lru L] {K V : Type}

def entry (cell : Cell K V) : K × V := (cell.key,cell.value)

-- The cells of the least recent entry first.
structure HoldsCells (size : Nat) (l : L K V) (cells : List (Cell K V)) : Prop where
  cap : Lru.cap l = size
  entries : Lru.iter l = (cells.map entry).reverse

theorem keys_entry (cells : List (Cell K V)) : (cells.map entry).reverse.map Prod.fst = (cells.map Cell.key).reverse := by
  rw [List.map_reverse,List.map_map]
  rfl

theorem keys_reverse {cells : List (Cell K V)} (distinct : (cells.map Cell.key).Nodup) :
    ((cells.map entry).reverse.map Prod.fst).Nodup := by
  rw [keys_entry]
  exact List.nodup_reverse.mpr distinct

theorem HoldsCells.absent {l : L K V} {cells : List (Cell K V)} (holds : HoldsCells size l cells)
    (absent : key ∉ cells.map Cell.key) : key ∉ (Lru.iter l).map Prod.fst := by
  rw [holds.entries,keys_entry,List.mem_reverse]
  exact absent

variable [LawfulLru L] [DecidableEq K]

-- Taking one key out of the entries takes one cell out of the cells.
theorem filter_entries {before after : List (Cell K V)} {cell : Cell K V} (distinct : ((before++cell::after).map Cell.key).Nodup) :
    (((before++cell::after).map entry).reverse.filter fun other => other.1 ≠ cell.key) = ((before++after).map entry).reverse := by
  have distinct' : (((before.map entry)++entry cell::after.map entry).map Prod.fst).Nodup := by
    rw [←List.map_cons,←List.map_append,List.map_map]
    exact distinct
  have split := Keyed.filter_split distinct'
  rw [List.filter_reverse,List.map_append,List.map_cons]
  exact congrArg List.reverse (split.trans List.map_append.symm)

theorem push_fresh {l : L K V} (absent : key ∉ (Lru.iter l).map Prod.fst) (room : (Lru.iter l).length < Lru.cap l) (value : V) :
    Lru.iter (Lru.push key value l) = (key,value)::Lru.iter l := by
  rw [push_iter,Keyed.filter_absent absent]
  exact List.take_of_length_le room

-- Pushed one after the other, entries come to stand in their order, the last one first.
theorem foldl_push (entries : List (K × V)) (l : L K V) (distinct : (entries.map Prod.fst).Nodup)
    (apart : ∀ entry ∈ entries, entry.1 ∉ (Lru.iter l).map Prod.fst) (fits : (Lru.iter l).length+entries.length ≤ Lru.cap l) :
    Lru.iter (entries.foldl (fun l entry => Lru.push entry.1 entry.2 l) l) = entries.reverse++Lru.iter l ∧
      Lru.cap (entries.foldl (fun l entry => Lru.push entry.1 entry.2 l) l) = Lru.cap l := by
  induction entries generalizing l with
  | nil => exact ⟨rfl,rfl⟩
  | cons entry rest ih =>
    rw [List.length_cons] at fits
    rw [List.map_cons,List.nodup_cons] at distinct
    have pushed := push_fresh (apart entry List.mem_cons_self) (by omega) entry.2
    obtain ⟨iter,cap⟩ := ih (Lru.push entry.1 entry.2 l) distinct.2 (by
      intro other member
      rw [pushed,List.map_cons,List.mem_cons,not_or]
      exact ⟨fun same => distinct.1 (same ▸ List.mem_map_of_mem member),apart other (List.mem_cons_of_mem _ member)⟩)
      (by rw [pushed,push_cap,List.length_cons]; omega)
    refine ⟨?_,cap.trans (push_cap entry.1 entry.2 l)⟩
    rw [List.foldl_cons,iter,pushed]
    simp

theorem HoldsCells.pushed {l : L K V} {cells : List (Cell K V)} (holds : HoldsCells size l cells)
    (absent : key ∉ cells.map Cell.key) (room : cells.length < size) (value : V) :
    HoldsCells size (Lru.push key value l) (cells++[⟨key,value,1⟩]) := by
  refine ⟨(push_cap key value l).trans holds.cap,?_⟩
  rw [push_fresh (holds.absent absent) (by rw [holds.entries,holds.cap,List.length_reverse,List.length_map]; exact room),
    holds.entries,List.map_append,List.reverse_append]
  rfl

-- The least recent entry leaves.
theorem HoldsCells.popped {l : L K V} {cell : Cell K V} {cells : List (Cell K V)} (holds : HoldsCells size l (cell::cells)) :
    Lru.popLru l = (some (entry cell),(Lru.popLru l).2) ∧ HoldsCells size (Lru.popLru l).2 cells := by
  have entries := holds.entries
  rw [List.map_cons,List.reverse_cons] at entries
  refine ⟨Prod.ext ?_ rfl,(pop_cap l).trans holds.cap,?_⟩
  · rw [pop_entry,entries,List.getLast?_concat]
  · rw [pop_iter,entries,List.dropLast_concat]

instance : FollowsCells L where
  rank _ := 0
  Holds size l cells := HoldsCells size l cells
  withCapacity_holds size sized := by
    refine ⟨Lru.new size,if_neg (Nat.ne_of_gt sized),new_cap size,?_⟩
    exact new_iter size
  len_holds holds := by
    change Lru.len _ = _
    rw [len_iter,holds.entries,List.length_reverse,List.length_map]
  get_hit {K V _ size l before after cell} holds distinct := by
    have found : ((Lru.iter l).find? fun other => other.1 = cell.key) = some (entry cell) := by
      rw [holds.entries,Keyed.find_iff (keys_reverse distinct)]
      exact ⟨List.mem_reverse.mpr (List.mem_map_of_mem (List.mem_append_right before List.mem_cons_self)),rfl⟩
    refine ⟨(Lru.get cell.key l).2,?_,(get_cap cell.key l).trans holds.cap,?_⟩
    · refine congrArg some (Prod.ext ?_ rfl)
      rw [get_value,found]
      rfl
    · rw [get_iter,found,holds.entries,filter_entries distinct]
      simp [entry]
  get_miss {K V _ size l cells key} holds absent := by
    have unkeyed := holds.absent absent
    refine ⟨(Lru.get key l).2,?_,(get_cap key l).trans holds.cap,?_⟩
    · refine congrArg some (Prod.ext ?_ rfl)
      rw [get_value,Keyed.find_none_iff.mpr unkeyed]
      rfl
    · rw [get_iter,Keyed.find_none_iff.mpr unkeyed,Keyed.filter_absent unkeyed]
      exact holds.entries
  insert_room value holds absent room := ⟨_,rfl,holds.pushed absent room value⟩
  replace {K V _ size l before after cell} holds distinct filled _ greater := by
    -- No cell ranks above another, so the first one goes.
    have none : before = [] := List.eq_nil_iff_forall_not_mem.mpr fun other member => Nat.lt_irrefl 0 (greater other member)
    subst none
    obtain ⟨popped,left⟩ := holds.popped
    refine ⟨(Lru.popLru l).2,?_,?_,?_⟩
    · simp only [InnerCache.evictKey]
      rw [popped]
      rfl
    · simp only [InnerCache.evictValue]
      rw [popped]
      rfl
    · intro key value absent
      exact ⟨_,rfl,left.pushed absent (by rw [←filled]; exact Nat.lt_succ_self _) value⟩

end Lru

-- A cache of the crate's kind on a list, most recent first.
structure ListLru (K V : Type) where
  cap : Nat
  entries : List (K × V)
  keys : (entries.map Prod.fst).Nodup
  within : entries.length ≤ cap

namespace ListLru
variable {K V : Type} [DecidableEq K]

def others (key : K) (entries : List (K × V)) : List (K × V) := entries.filter fun entry => entry.1 ≠ key

theorem others_keys (key : K) {entries : List (K × V)} (keys : (entries.map Prod.fst).Nodup) (value : V) :
    (((key,value)::others key entries).map Prod.fst).Nodup := by
  rw [List.map_cons,List.nodup_cons]
  refine ⟨?_,(List.filter_sublist.map Prod.fst).nodup keys⟩
  intro held
  obtain ⟨entry,member,same⟩ := List.mem_map.mp held
  exact absurd same (by simpa using (List.mem_filter.mp member).2)

theorem others_length {key : K} {entries : List (K × V)} (held : entry ∈ entries) (same : entry.1 = key) :
    (entry::others key entries).length ≤ entries.length := by
  refine List.length_filter_lt_length_iff_exists.mpr ⟨entry,held,?_⟩
  simp [same]

def renew (key : K) (l : ListLru K V) : ListLru K V :=
  match found : l.entries.find? fun entry => entry.1 = key with
  | none => l
  | some entry =>
    have same : entry.1 = key := by simpa using List.find?_some found
    {l with
      entries:=entry::others key l.entries
      keys:=by
        rw [←same]
        exact others_keys entry.1 l.keys entry.2
      within:=Nat.le_trans (others_length (List.mem_of_find?_eq_some found) same) l.within}

theorem renew_entries (key : K) (l : ListLru K V) : (l.renew key).entries =
    (l.entries.find? fun entry => entry.1 = key).toList++others key l.entries := by
  unfold renew
  split
  · rename_i none
    rw [none]
    exact (Keyed.filter_absent (Keyed.find_none_iff.mp none)).symm
  · rename_i entry found
    change entry::others key l.entries = _
    rw [found]
    rfl

instance : Lru ListLru where
  new cap := ⟨cap,[],List.nodup_nil,Nat.zero_le cap⟩
  cap l := l.cap
  iter l := l.entries
  len l := l.entries.length
  get key l := ((l.entries.find? fun entry => entry.1 = key).map Prod.snd,l.renew key)
  push key value l := {l with
    entries:=((key,value)::others key l.entries).take l.cap
    keys:=((List.take_sublist _ _).map Prod.fst).nodup (others_keys key l.keys value)
    within:=List.length_take_le _ _}
  popLru l := (l.entries.getLast?,{l with
    entries:=l.entries.dropLast
    keys:=((List.dropLast_sublist _).map Prod.fst).nodup l.keys
    within:=Nat.le_trans (List.dropLast_sublist _).length_le l.within})

theorem renew_cap (key : K) (l : ListLru K V) : (l.renew key).cap = l.cap := by
  unfold renew
  split <;> rfl

instance lawful : LawfulLru ListLru where
  new_iter _ := rfl
  new_cap _ := rfl
  len_iter _ := rfl
  len_cap l := l.within
  keys l := l.keys
  get_value _ _ := rfl
  get_iter key l := renew_entries key l
  get_cap key l := renew_cap key l
  push_iter _ _ _ := rfl
  push_cap _ _ _ := rfl
  pop_entry _ := rfl
  pop_iter _ := rfl
  pop_cap _ := rfl

end ListLru

namespace LRUniCache
variable {L : Type → Type → Type} [Lru L] [LawfulLru L] {F E : Type} [DecidableEq F] [DecidableEq E] [IncrementByOne E]
  [EncodedInteger E]

-- What one fresh cache encodes another one decodes, field by field.
theorem lru_round_trip (size : Nat) (fields : List F) (sized : 1 ≤ size) (fits : size ≤ EncodedInteger.largest E) :
    ∃ fresh : LRUniCache L F E, new size = some fresh ∧ ∃ answers encoder decoder,
      Transducer.feed tryEncode fields fresh = some (answers,encoder) ∧
      Transducer.feed decode answers fresh = some (fields,decoder) :=
  FieldCoder.conveys_fresh sized fits fields

theorem lru_round_trip_two : ∃ fresh : LRUniCache ListLru Nat UInt8, new 2 = some fresh ∧ ∃ answers encoder decoder,
    Transducer.feed tryEncode [10,20,10,30,20] fresh = some (answers,encoder) ∧
    Transducer.feed decode answers fresh = some ([10,20,10,30,20],decoder) :=
  lru_round_trip 2 [10,20,10,30,20] (by decide) (by decide)

-- The second hit renews 10, so 30 takes over the code of 20.
example : ((new 2 : Option (LRUniCache ListLru Nat UInt8)).bind (Transducer.feed tryEncode [10,20,10,30,20,30])).map Prod.fst =
    some [.notEncoded 10,.notEncoded 20,.encoded 1,.notEncoded 30,.notEncoded 20,.encoded 2] := by decide

end LRUniCache
end OmniPaxosKV

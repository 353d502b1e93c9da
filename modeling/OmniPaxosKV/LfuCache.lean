import OmniPaxosKV.UniCache
import OmniPaxosKV.KeyMap

-- The field cache that gives up the value used least often, and of those the one
-- that came to that many uses first.
namespace OmniPaxosKV

-- The set of the `linked_hash_set` crate, in the order of insertion.
class LinkedHashSet (H : Type → Type) where
  empty {K : Type} : H K
  toList {K : Type} : H K → List K
  isEmpty {K : Type} : H K → Bool
  insert {K : Type} [DecidableEq K] : K → H K → H K
  remove {K : Type} [DecidableEq K] : K → H K → H K
  popFront {K : Type} [DecidableEq K] : H K → Option K × H K

-- What the crate documents; a value that is inserted again moves to the end.
class LawfulLinkedHashSet (H : Type → Type) [LinkedHashSet H] : Prop where
  empty_list {K : Type} : LinkedHashSet.toList (LinkedHashSet.empty : H K) = []
  isEmpty_list {K : Type} (h : H K) : LinkedHashSet.isEmpty h = (LinkedHashSet.toList h).isEmpty
  insert_list {K : Type} [DecidableEq K] (key : K) (h : H K) :
    LinkedHashSet.toList (LinkedHashSet.insert key h) = ((LinkedHashSet.toList h).filter fun other => other ≠ key)++[key]
  remove_list {K : Type} [DecidableEq K] (key : K) (h : H K) :
    LinkedHashSet.toList (LinkedHashSet.remove key h) = (LinkedHashSet.toList h).filter fun other => other ≠ key
  pop_key {K : Type} [DecidableEq K] (h : H K) : (LinkedHashSet.popFront h).1 = (LinkedHashSet.toList h).head?
  pop_list {K : Type} [DecidableEq K] (h : H K) :
    LinkedHashSet.toList (LinkedHashSet.popFront h).2 = (LinkedHashSet.toList h).tail

structure ValueCounter (V : Type) where
  value : V
  count : Nat
  deriving DecidableEq

-- `values` lists the hash map in some order; no call but the iterator depends on it.
structure LFUCache (H : Type → Type) (K V : Type) where
  values : List (K × ValueCounter V)
  frequencyBin : KeyMap Nat (H K)
  capacity : Nat
  minFrequency : Nat

namespace LFUCache
variable {H : Type → Type} [LinkedHashSet H] {K V : Type}

omit [LinkedHashSet H] in
def withCapacity (capacity : Nat) : Option (LFUCache H K V) :=
  if capacity = 0 then none else some ⟨[],.empty,capacity,0⟩

omit [LinkedHashSet H] in
def len (c : LFUCache H K V) : Nat := c.values.length

-- The keys of one bin in their order; a bin that was never made has none.
def bin (c : LFUCache H K V) (count : Nat) : List K := (c.frequencyBin count).elim [] LinkedHashSet.toList

variable [DecidableEq K]

omit [LinkedHashSet H] in
def counter (key : K) (c : LFUCache H K V) : Option (ValueCounter V) :=
  (c.values.find? fun entry => entry.1 = key).map Prod.snd

omit [LinkedHashSet H] in
def removeValue (key : K) (c : LFUCache H K V) : LFUCache H K V :=
  {c with values:=c.values.filter fun entry => entry.1 ≠ key}

omit [LinkedHashSet H] in
def insertValue (key : K) (counter : ValueCounter V) (c : LFUCache H K V) : LFUCache H K V :=
  {c with values:=(key,counter)::(c.removeValue key).values}

def insertKey (count : Nat) (key : K) (c : LFUCache H K V) : LFUCache H K V :=
  {c with frequencyBin:=
    c.frequencyBin.insert count (LinkedHashSet.insert key ((c.frequencyBin count).getD LinkedHashSet.empty))}

def updateFrequencyBin (key : K) (c : LFUCache H K V) : Option (LFUCache H K V) :=
  match c.counter key with
  | none => some c
  | some counter => do
    let bin ← c.frequencyBin counter.count
    let bin := LinkedHashSet.remove key bin
    let c := {c with frequencyBin:=c.frequencyBin.insert counter.count bin}
    let c := c.insertValue key {counter with count:=counter.count+1}
    let c := if counter.count = c.minFrequency ∧ LinkedHashSet.isEmpty bin then {c with minFrequency:=c.minFrequency+1} else c
    return c.insertKey (counter.count+1) key

def get (key : K) (c : LFUCache H K V) : Option (Option V × LFUCache H K V) := do
  let c ← c.updateFrequencyBin key
  return ((c.counter key).map ValueCounter.value,c)

-- The first key of a bin leaves it; there being none panics.
def popBin (count : Nat) (bin : H K) (c : LFUCache H K V) : Option (K × LFUCache H K V) :=
  match LinkedHashSet.popFront bin with
  | (none,_) => none
  | (some key,bin) => some (key,{c with frequencyBin:=c.frequencyBin.insert count bin})

def evict (c : LFUCache H K V) : Option (LFUCache H K V) := do
  let bin ← c.frequencyBin c.minFrequency
  let (key,c) ← c.popBin c.minFrequency bin
  return c.removeValue key

def evictAndReturnKey (c : LFUCache H K V) : Option (Option K × LFUCache H K V) :=
  match c.frequencyBin c.minFrequency with
  | none => some (none,c)
  | some bin => do
    let (key,c) ← c.popBin c.minFrequency bin
    return (some key,c.removeValue key)

def evictAndReturnValue (c : LFUCache H K V) : Option (Option V × LFUCache H K V) :=
  match c.frequencyBin c.minFrequency with
  | none => some (none,c)
  | some bin => do
    let (key,c) ← c.popBin c.minFrequency bin
    return ((c.counter key).map ValueCounter.value,c.removeValue key)

def set (key : K) (value : V) (c : LFUCache H K V) : Option (LFUCache H K V) :=
  match c.counter key with
  | some counter => (c.insertValue key {counter with value:=value}).updateFrequencyBin key
  | none => do
    let c ← if c.capacity ≤ c.len then c.evict else some c
    let c := c.insertValue key ⟨value,1⟩
    return {c with minFrequency:=1}.insertKey 1 key

end LFUCache

instance [LinkedHashSet H] : InnerCache (LFUCache H) where
  withCapacity := LFUCache.withCapacity
  len := LFUCache.len
  get := LFUCache.get
  evictKey c := match c.evictAndReturnKey with
    | some (some key,c) => some (key,c)
    | _ => none
  evictValue c := match c.evictAndReturnValue with
    | some (some value,c) => some (value,c)
    | _ => none
  insert := LFUCache.set

abbrev LFUniCache (H : Type → Type) (F E : Type) := FieldCoder (LFUCache H) F E

namespace LFUniCache
variable {H : Type → Type} [LinkedHashSet H] {F E : Type} [DecidableEq F] [DecidableEq E] [IncrementByOne E]

def new (size : Nat) : Option (LFUniCache H F E) := FieldCoder.new size

omit [DecidableEq E] in
def tryEncode (field : F) (c : LFUniCache H F E) : Option (MaybeEncoded F E × LFUniCache H F E) := FieldCoder.tryEncode field c

def decode (result : MaybeEncoded F E) (c : LFUniCache H F E) : Option (F × LFUniCache H F E) := FieldCoder.decode result c

instance : FieldCache (LFUniCache H F E) F E := ⟨new,tryEncode,decode⟩

-- Only the decoder is cloned, and it is filled in the order in which the encoder's
-- hash map happens to be iterated; no use count goes with it.
omit [DecidableEq F] [IncrementByOne E] in
def clone (order : List (F × ValueCounter E)) (c : LFUniCache H F E) : Option (LFUniCache H F E) := do
  let decoder ← LFUCache.withCapacity c.size
  let decoder ← order.foldlM (fun decoder entry => LFUCache.set entry.2.value entry.1 decoder) decoder
  let encoder ← LFUCache.withCapacity 1
  return ⟨encoder,decoder,c.encoding,c.size⟩

end LFUniCache

namespace LFUCache
open LawfulLinkedHashSet
variable {H : Type → Type} [LinkedHashSet H] {K V : Type} {size : Nat} {c : LFUCache H K V} {cells : List (Cell K V)}

def entry (cell : Cell K V) : K × ValueCounter V := (cell.key,⟨cell.value,cell.uses⟩)

def usedTimes (count : Nat) (cells : List (Cell K V)) : List (Cell K V) := cells.filter fun cell => cell.uses = count

-- Each key is in the bin of its count, and each bin is in the order in which its
-- keys came to that count.
structure HoldsBins (size : Nat) (c : LFUCache H K V) (cells : List (Cell K V)) : Prop where
  capacity : c.capacity = size
  values : c.values.Perm (cells.map entry)
  keys : (cells.map Cell.key).Nodup
  used : ∀ cell ∈ cells, 1 ≤ cell.uses
  bins : ∀ count, c.bin count = (usedTimes count cells).map Cell.key

-- Between calls the least count is that of a bin with a key in it.
structure HoldsCells (size : Nat) (c : LFUCache H K V) (cells : List (Cell K V)) : Prop extends HoldsBins size c cells where
  attained : cells ≠ [] → ∃ cell ∈ cells, cell.uses = c.minFrequency
  least : ∀ cell ∈ cells, c.minFrequency ≤ cell.uses

theorem HoldsBins.len_eq (holds : HoldsBins size c cells) : c.len = cells.length :=
  holds.values.length_eq.trans (List.length_map entry)

theorem HoldsBins.distinct (holds : HoldsBins size c cells) : (c.values.map Prod.fst).Nodup := by
  have order := holds.values.map Prod.fst
  rw [List.map_map] at order
  exact order.nodup_iff.mpr holds.keys

theorem usedTimes_append (count : Nat) (cells more : List (Cell K V)) :
    usedTimes count (cells++more) = usedTimes count cells++usedTimes count more :=
  List.filter_append cells more

theorem usedTimes_split (count : Nat) (before after : List (Cell K V)) (cell : Cell K V) : usedTimes count (before++cell::after) =
    if cell.uses = count then usedTimes count before++cell::usedTimes count after else usedTimes count (before++after) := by
  rw [usedTimes_append,usedTimes_append,usedTimes,usedTimes,List.filter_cons]
  by_cases same : cell.uses = count <;> simp [usedTimes,same]

theorem HoldsBins.keys_apart {cell : Cell K V} (holds : HoldsBins size c (before++cell::after)) :
    cell.key ∉ (before++after).map Cell.key := by
  have distinct := (List.perm_middle.map Cell.key).nodup_iff.mp holds.keys
  exact (List.nodup_cons.mp distinct).1

theorem bin_inserted {bins : KeyMap Nat (H K)} (same : c.frequencyBin = bins.insert count h) (other : Nat) :
    c.bin other = if other = count then LinkedHashSet.toList h else (bins other).elim [] LinkedHashSet.toList := by
  rw [bin,same,KeyMap.insert_apply]
  split <;> rfl

-- A bin with a key in it was made.
theorem bin_made (some : c.bin count ≠ []) : ∃ h, c.frequencyBin count = .some h ∧ LinkedHashSet.toList h = c.bin count := by
  cases made : c.frequencyBin count with
  | none =>
    refine absurd ?_ some
    rw [bin,made]
    rfl
  | some h =>
    refine ⟨h,rfl,?_⟩
    rw [bin,made]
    rfl

variable [DecidableEq K]

theorem HoldsBins.counter_mem (holds : HoldsBins size c cells) (cell : Cell K V) (member : cell ∈ cells) :
    c.counter cell.key = some ⟨cell.value,cell.uses⟩ := by
  have held : entry cell ∈ c.values := holds.values.mem_iff.mpr (List.mem_map_of_mem member)
  have found : (c.values.find? fun other => other.1 = cell.key) = some (entry cell) :=
    (Keyed.find_iff holds.distinct).mpr ⟨held,rfl⟩
  rw [counter,found]
  rfl

theorem HoldsBins.counter_none (holds : HoldsBins size c cells) (absent : key ∉ cells.map Cell.key) : c.counter key = none := by
  rw [counter,Option.map_eq_none_iff,Keyed.find_none_iff]
  intro held
  obtain ⟨pair,member,rfl⟩ := List.mem_map.mp held
  obtain ⟨cell,found,rfl⟩ := List.mem_map.mp (holds.values.mem_iff.mp member)
  exact absent (List.mem_map_of_mem found)

-- The hash map without one key.
theorem HoldsBins.values_removed {cell : Cell K V} (holds : HoldsBins size c (before++cell::after)) :
    (c.removeValue cell.key).values.Perm ((before++after).map entry) := by
  have keys : ((before.map entry++entry cell::after.map entry).map Prod.fst).Nodup := by
    rw [←List.map_cons,←List.map_append,List.map_map]
    exact holds.keys
  have split := Keyed.filter_split keys
  rw [←List.map_cons,←List.map_append,←List.map_append] at split
  exact (holds.values.filter _).trans (List.Perm.of_eq split)

-- The bin of a key without that key.
theorem HoldsBins.bin_removed {cell : Cell K V} (holds : HoldsBins size c (before++cell::after)) :
    ((c.bin cell.uses).filter fun other => other ≠ cell.key) = (usedTimes cell.uses (before++after)).map Cell.key := by
  have split : c.bin cell.uses = (usedTimes cell.uses before).map Cell.key++cell.key::(usedTimes cell.uses after).map Cell.key := by
    rw [holds.bins,usedTimes_split,if_pos rfl,List.map_append,List.map_cons]
  have distinct : (((usedTimes cell.uses before).map Cell.key++cell.key::(usedTimes cell.uses after).map Cell.key).map id).Nodup := by
    rw [List.map_id,←split,holds.bins]
    exact (List.filter_sublist.map Cell.key).nodup holds.keys
  rw [split,usedTimes_append,List.map_append]
  exact Keyed.filter_split distinct

variable [LawfulLinkedHashSet H]

-- A key that no bin has comes in at the end of one.
theorem bin_insertKey (count other : Nat) (key : K) (absent : key ∉ c.bin count) :
    (c.insertKey count key).bin other = if other = count then c.bin count++[key] else c.bin other := by
  rw [bin_inserted rfl,insert_list]
  have listed : LinkedHashSet.toList ((c.frequencyBin count).getD LinkedHashSet.empty) = c.bin count := by
    unfold bin
    cases c.frequencyBin count with
    | none => exact empty_list
    | some h => rfl
  have kept : (c.bin count).filter (fun other => other ≠ key) = c.bin count := by
    have unlisted : key ∉ (c.bin count).map id := by
      rw [List.map_id]
      exact absent
    exact Keyed.filter_absent unlisted
  rw [listed,kept]
  rfl

-- The cache without a key, before the key comes in again or another one does.
def withoutKey (key : K) (count : Nat) (h : H K) (c : LFUCache H K V) : LFUCache H K V :=
  {c with frequencyBin:=c.frequencyBin.insert count h}.removeValue key

omit [LawfulLinkedHashSet H] in
theorem HoldsBins.without {cell : Cell K V} (holds : HoldsBins size c (before++cell::after))
    (listed : LinkedHashSet.toList h = (c.bin cell.uses).filter fun other => other ≠ cell.key) :
    HoldsBins size (c.withoutKey cell.key cell.uses h) (before++after) := by
  have part : (before++after).Sublist (before++cell::after) := (List.Sublist.refl before).append (List.sublist_cons_self cell after)
  refine ⟨holds.capacity,holds.values_removed,(part.map Cell.key).nodup holds.keys,
    fun other member => holds.used other (part.subset member),?_⟩
  intro count
  have inserted : (c.withoutKey cell.key cell.uses h).frequencyBin = c.frequencyBin.insert cell.uses h := rfl
  rw [bin_inserted inserted,listed,holds.bin_removed]
  split
  · rename_i same
    rw [same]
  · rename_i apart
    refine (holds.bins count).trans ?_
    rw [usedTimes_split,if_neg (Ne.symm apart)]

-- A key comes in, with a count that it is then in the bin of.
theorem HoldsBins.entered (holds : HoldsBins size c cells) (cell : Cell K V) (absent : cell.key ∉ cells.map Cell.key)
    (used : 1 ≤ cell.uses) (same : next.values = entry cell::c.values) (bins : next.frequencyBin = (c.insertKey cell.uses cell.key).frequencyBin)
    (capacity : next.capacity = c.capacity) : HoldsBins size next (cells++[cell]) := by
  refine ⟨capacity.trans holds.capacity,?_,?_,?_,?_⟩
  · rw [same,List.map_append]
    exact (holds.values.cons (entry cell)).trans (List.perm_append_singleton (entry cell) (cells.map entry)).symm
  · rw [List.map_append]
    refine (List.perm_append_singleton cell.key (cells.map Cell.key)).nodup_iff.mpr ?_
    exact List.nodup_cons.mpr ⟨absent,holds.keys⟩
  · intro other member
    rcases List.mem_append.mp member with earlier | last
    · exact holds.used other earlier
    · rw [List.mem_singleton.mp last]
      exact used
  · intro count
    have unlisted : cell.key ∉ c.bin cell.uses := by
      rw [holds.bins]
      exact fun held => absent ((List.filter_sublist.map Cell.key).subset held)
    have binned : next.bin count = (c.insertKey cell.uses cell.key).bin count := by
      unfold bin
      rw [bins]
    rw [binned,bin_insertKey _ _ _ unlisted,usedTimes_append,List.map_append]
    by_cases own : count = cell.uses
    · rw [if_pos own,own,holds.bins]
      simp [usedTimes]
    · rw [if_neg own,holds.bins]
      simp [usedTimes,Ne.symm own]

-- A hit takes the key from the bin of its count to the end of the next one, and the
-- least count rises with it if that bin was the least and is empty now.
theorem HoldsBins.renewed {cell : Cell K V} (holds : HoldsBins size c (before++cell::after)) :
    ∃ next, c.updateFrequencyBin cell.key = some next ∧
      HoldsBins size next (before++after++[{cell with uses:=cell.uses+1}]) ∧
      next.minFrequency = (if cell.uses = c.minFrequency ∧ ∀ other ∈ before++after, other.uses ≠ cell.uses then
        c.minFrequency+1 else c.minFrequency) ∧
      ∀ count, next.frequencyBin count = none ↔ c.frequencyBin count = none ∧ count ≠ cell.uses+1 := by
  have member : cell ∈ before++cell::after := List.mem_append_right before List.mem_cons_self
  have filled : c.bin cell.uses ≠ [] := by
    rw [holds.bins,usedTimes_split,if_pos rfl]
    simp
  obtain ⟨h,made,listed⟩ := bin_made filled
  have kept : LinkedHashSet.toList (LinkedHashSet.remove cell.key h) = (c.bin cell.uses).filter fun other => other ≠ cell.key := by
    rw [remove_list,listed]
  have without := holds.without kept
  let raised : Cell K V := {cell with uses:=cell.uses+1}
  have alone : LinkedHashSet.isEmpty (LinkedHashSet.remove cell.key h) ↔ ∀ other ∈ before++after, other.uses ≠ cell.uses := by
    rw [isEmpty_list,kept,holds.bin_removed,List.isEmpty_iff,List.map_eq_nil_iff,usedTimes,List.filter_eq_nil_iff]
    simp
  let step (minFrequency : Nat) : LFUCache H K V :=
    {({c with frequencyBin:=c.frequencyBin.insert cell.uses (LinkedHashSet.remove cell.key h)} : LFUCache H K V).insertValue
      cell.key ⟨cell.value,cell.uses+1⟩ with minFrequency:=minFrequency}.insertKey (cell.uses+1) cell.key
  have entered (minFrequency : Nat) : HoldsBins size (step minFrequency) (before++after++[raised]) :=
    without.entered raised holds.keys_apart (Nat.le_add_left 1 _) rfl rfl rfl
  have bins (minFrequency count : Nat) :
      (step minFrequency).frequencyBin count = none ↔ c.frequencyBin count = none ∧ count ≠ cell.uses+1 := by
    simp only [step,insertKey,insertValue,KeyMap.insert_apply]
    by_cases raised : count = cell.uses+1
    · simp [raised]
    · by_cases own : count = cell.uses
      · simp [own,made]
      · simp [raised,own]
  by_cases last : cell.uses = c.minFrequency ∧ LinkedHashSet.isEmpty (LinkedHashSet.remove cell.key h)
  · refine ⟨step (c.minFrequency+1),?_,entered _,(if_pos ⟨last.1,alone.mp last.2⟩).symm,bins _⟩
    rw [updateFrequencyBin,holds.counter_mem cell member]
    simp only [made,Option.bind_eq_bind,Option.bind_some,Option.pure_def]
    exact congrArg (fun c => some (insertKey (cell.uses+1) cell.key c)) (if_pos last)
  · refine ⟨step c.minFrequency,?_,entered _,(if_neg fun both => last ⟨both.1,alone.mpr both.2⟩).symm,bins _⟩
    rw [updateFrequencyBin,holds.counter_mem cell member]
    simp only [made,Option.bind_eq_bind,Option.bind_some,Option.pure_def]
    exact congrArg (fun c => some (insertKey (cell.uses+1) cell.key c)) (if_neg last)

theorem HoldsCells.renewed {cell : Cell K V} (holds : HoldsCells size c (before++cell::after)) :
    ∃ next, c.updateFrequencyBin cell.key = some next ∧
      HoldsCells size next (before++after++[{cell with uses:=cell.uses+1}]) := by
  have member : cell ∈ before++cell::after := List.mem_append_right before List.mem_cons_self
  have part : ∀ other ∈ before++after, other ∈ before++cell::after :=
    ((List.Sublist.refl before).append (List.sublist_cons_self cell after)).subset
  have minimal := holds.least cell member
  obtain ⟨next,updated,bins,same,_⟩ := holds.toHoldsBins.renewed
  refine ⟨next,updated,bins,?_,?_⟩ <;> rw [same]
  · -- Another cell is used as little, or it was not this one that was used least.
    intro _
    split
    · rename_i last
      exact ⟨_,List.mem_append_right _ List.mem_cons_self,congrArg (·+1) last.1⟩
    · rename_i last
      obtain ⟨lowest,held,count⟩ := holds.attained (List.ne_nil_of_mem member)
      rcases List.mem_cons.mp (List.perm_middle.mem_iff.mp held) with rfl | other
      · have shared : ∃ other ∈ before++after, other.uses = lowest.uses := by
          by_contra none
          exact last ⟨count,fun other held same => none ⟨other,held,same⟩⟩
        obtain ⟨other,held,same⟩ := shared
        exact ⟨other,List.mem_append_left _ held,same.trans count⟩
      · exact ⟨lowest,List.mem_append_left _ other,count⟩
  · intro other held
    rcases List.mem_append.mp held with earlier | ended
    · have below := holds.least other (part other earlier)
      split
      · rename_i last
        have apart := last.2 other earlier
        omega
      · exact below
    · rw [List.mem_singleton.mp ended]
      split
      · exact Nat.succ_le_succ minimal
      · exact Nat.le_succ_of_le minimal

-- A new key while there is room; the least count need not be kept up before it.
theorem HoldsBins.filled (holds : HoldsBins size c cells) (absent : key ∉ cells.map Cell.key) (room : cells.length < size)
    (value : V) : ∃ next, c.set key value = some next ∧ HoldsCells size next (cells++[⟨key,value,1⟩]) := by
  let next : LFUCache H K V := {c.insertValue key ⟨value,1⟩ with minFrequency:=1}.insertKey 1 key
  have unfull : ¬ c.capacity ≤ c.len := by
    rw [holds.capacity,holds.len_eq]
    omega
  have unkeyed : c.values.filter (fun other => other.1 ≠ key) = c.values := by
    refine Keyed.filter_absent ?_
    rw [←Keyed.find_none_iff,←Option.map_eq_none_iff]
    exact holds.counter_none absent
  refine ⟨next,?_,holds.entered ⟨key,value,1⟩ absent (Nat.le_refl 1) ?_ rfl rfl,?_,?_⟩
  · rw [set,holds.counter_none absent]
    simp only [if_neg unfull,Option.bind_eq_bind,Option.bind_some,Option.pure_def]
    rfl
  · exact congrArg (List.cons _) unkeyed
  · intro _
    exact ⟨⟨key,value,1⟩,List.mem_append_right _ List.mem_cons_self,rfl⟩
  · intro other member
    rcases List.mem_append.mp member with earlier | last
    · exact holds.used other earlier
    · rw [List.mem_singleton.mp last]
      exact Nat.le_refl 1

-- The key to give up is the first of the least bin.
theorem HoldsBins.popped {cell : Cell K V} (holds : HoldsBins size c (before++cell::after)) (count : c.minFrequency = cell.uses)
    (first : ∀ other ∈ before, other.uses ≠ cell.uses) :
    ∃ left, c.evict = some left ∧ c.evictAndReturnKey = some (some cell.key,left) ∧
      c.evictAndReturnValue = some (some cell.value,left) ∧ HoldsBins size left (before++after) ∧
      left.minFrequency = c.minFrequency ∧ ∀ count, left.frequencyBin count = none ↔ c.frequencyBin count = none := by
  have member : cell ∈ before++cell::after := List.mem_append_right before List.mem_cons_self
  have none : usedTimes cell.uses before = [] := by
    refine List.filter_eq_nil_iff.mpr ?_
    intro other held
    simpa using first other held
  have listed : c.bin cell.uses = cell.key::(usedTimes cell.uses after).map Cell.key := by
    rw [holds.bins,usedTimes_split,if_pos rfl,none]
    rfl
  obtain ⟨h,made,same⟩ := bin_made (listed ▸ List.cons_ne_nil _ _)
  have key : (LinkedHashSet.popFront h).1 = some cell.key := by
    rw [pop_key,same,listed]
    rfl
  have kept : LinkedHashSet.toList (LinkedHashSet.popFront h).2 = (c.bin cell.uses).filter fun other => other ≠ cell.key := by
    rw [pop_list,same,holds.bin_removed,listed,usedTimes_append,none]
    rfl
  have popped : c.popBin cell.uses h =
      some (cell.key,{c with frequencyBin:=c.frequencyBin.insert cell.uses (LinkedHashSet.popFront h).2}) := by
    rw [popBin,show LinkedHashSet.popFront h = (some cell.key,(LinkedHashSet.popFront h).2) from Prod.ext key rfl]
  refine ⟨_,?_,?_,?_,holds.without kept,rfl,?_⟩
  · rw [evict,count,made]
    simp only [popped,Option.bind_eq_bind,Option.bind_some,Option.pure_def]
    rfl
  · rw [evictAndReturnKey,count,made]
    simp only [popped,Option.bind_eq_bind,Option.bind_some,Option.pure_def]
    rfl
  · rw [evictAndReturnValue,count,made]
    simp only [popped,Option.bind_eq_bind,Option.bind_some,Option.pure_def]
    have value : ({c with frequencyBin:=c.frequencyBin.insert cell.uses (LinkedHashSet.popFront h).2} : LFUCache H K V).counter
        cell.key = some ⟨cell.value,cell.uses⟩ := holds.counter_mem cell member
    rw [value]
    rfl
  · intro other
    change (c.frequencyBin.insert cell.uses _) other = Option.none ↔ _
    rw [KeyMap.insert_apply]
    split
    · rename_i own
      simp [own,made]
    · exact Iff.rfl

theorem HoldsCells.popped {cell : Cell K V} (holds : HoldsCells size c (before++cell::after))
    (lowest : ∀ other ∈ before++cell::after, cell.uses ≤ other.uses) (first : ∀ other ∈ before, cell.uses < other.uses) :
    ∃ left, c.evictAndReturnKey = some (some cell.key,left) ∧ c.evictAndReturnValue = some (some cell.value,left) ∧
      HoldsBins size left (before++after) := by
  have member : cell ∈ before++cell::after := List.mem_append_right before List.mem_cons_self
  have count : c.minFrequency = cell.uses := by
    obtain ⟨other,held,same⟩ := holds.attained (List.ne_nil_of_mem member)
    exact Nat.le_antisymm (holds.least cell member) (same ▸ lowest other held)
  obtain ⟨left,_,key,value,bins,_⟩ := holds.toHoldsBins.popped count fun other held => Nat.ne_of_gt (first other held)
  exact ⟨left,key,value,bins⟩

omit [DecidableEq K] [LawfulLinkedHashSet H] in
theorem holds_empty (size : Nat) : HoldsCells size (⟨[],.empty,size,0⟩ : LFUCache H K V) [] :=
  ⟨⟨rfl,.nil,List.nodup_nil,List.forall_mem_nil _,fun _ => rfl⟩,fun some => absurd rfl some,List.forall_mem_nil _⟩

instance : FollowsCells (LFUCache H) where
  rank := Codebook.leastUsed
  Holds size c cells := HoldsCells size c cells
  withCapacity_holds size sized := ⟨_,if_neg (Nat.ne_of_gt sized),holds_empty size⟩
  len_holds holds := holds.len_eq
  get_hit {K V _ size c before after cell} holds _ := by
    obtain ⟨next,updated,renewed⟩ := holds.renewed
    refine ⟨next,?_,renewed⟩
    have value := renewed.counter_mem {cell with uses:=cell.uses+1} (List.mem_append_right _ List.mem_cons_self)
    simp only [InnerCache.get,get,updated,Option.bind_eq_bind,Option.bind_some,Option.pure_def]
    rw [value]
    rfl
  get_miss {K V _ size c cells key} holds absent := by
    have none := holds.counter_none absent
    refine ⟨c,?_,holds⟩
    simp only [InnerCache.get,get,updateFrequencyBin,none,Option.bind_eq_bind,Option.bind_some,Option.pure_def]
    rfl
  insert_room value holds absent room := holds.filled absent room value
  replace {K V _ size c before after cell} holds _ filled least greater := by
    obtain ⟨left,key,value,bins⟩ := holds.popped least greater
    refine ⟨left,?_,?_,?_⟩
    · simp only [InnerCache.evictKey,key]
    · simp only [InnerCache.evictValue,value]
    · intro key value absent
      refine bins.filled absent ?_ value
      rw [←filled,List.length_append,List.length_append,List.length_cons]
      omega

end LFUCache

-- A set of the crate's kind on a list.
structure ListSet (K : Type) where
  keys : List K

namespace ListSet

instance : LinkedHashSet ListSet where
  empty := ⟨[]⟩
  toList h := h.keys
  isEmpty h := h.keys.isEmpty
  insert key h := ⟨(h.keys.filter fun other => other ≠ key)++[key]⟩
  remove key h := ⟨h.keys.filter fun other => other ≠ key⟩
  popFront h := (h.keys.head?,⟨h.keys.tail⟩)

instance lawfulSet : LawfulLinkedHashSet ListSet where
  empty_list := rfl
  isEmpty_list _ := rfl
  insert_list _ _ := rfl
  remove_list _ _ := rfl
  pop_key _ := rfl
  pop_list _ := rfl

end ListSet

namespace LFUniCache
variable {H : Type → Type} [LinkedHashSet H] [LawfulLinkedHashSet H] {F E : Type} [DecidableEq F] [DecidableEq E]
  [IncrementByOne E] [EncodedInteger E]

-- What one fresh cache encodes another one decodes, field by field, and no key is
-- taken from an empty bin on the way.
theorem lfu_round_trip (size : Nat) (fields : List F) (sized : 1 ≤ size) (fits : size ≤ EncodedInteger.largest E) :
    ∃ fresh : LFUniCache H F E, new size = some fresh ∧ ∃ answers encoder decoder,
      Transducer.feed tryEncode fields fresh = some (answers,encoder) ∧
      Transducer.feed decode answers fresh = some (fields,decoder) :=
  FieldCoder.conveys_fresh sized fits fields

theorem lfu_round_trip_two : ∃ fresh : LFUniCache ListSet Nat UInt8, new 2 = some fresh ∧ ∃ answers encoder decoder,
    Transducer.feed tryEncode [10,20,10,30,20,30] fresh = some (answers,encoder) ∧
    Transducer.feed decode answers fresh = some ([10,20,10,30,20,30],decoder) :=
  lfu_round_trip 2 [10,20,10,30,20,30] (by decide) (by decide)

-- The second use of 10 keeps it from then on, and 30 and 20 take turns.
example : ((new 2 : Option (LFUniCache ListSet Nat UInt8)).bind (Transducer.feed tryEncode [10,20,10,30,20,10])).map Prod.fst =
    some [.notEncoded 10,.notEncoded 20,.encoded 1,.notEncoded 30,.notEncoded 20,.encoded 1] := by decide

end LFUniCache
end OmniPaxosKV

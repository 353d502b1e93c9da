import Mathlib.Data.List.Lex
import Mathlib.Order.Fin.Basic
import Mathlib.Tactic.Ring

namespace OmniPaxosKV

-- A map with ordered keys, as the list of its bindings from the least key on.
structure OrderedMap (Key Value : Type) [LinearOrder Key] where
  entries : List (Key × Value)
  sorted : entries.Pairwise (·.1 < ·.1)

namespace OrderedMap
variable {Key Value : Type} [LinearOrder Key]

def empty : OrderedMap Key Value := ⟨[],.nil⟩

-- The binding goes before the first larger key, in the place of an equal one.
def place (key : Key) (value : Value) : List (Key × Value) → List (Key × Value)
  | [] => [(key,value)]
  | first::rest =>
    if key < first.1 then (key,value)::first::rest
    else if key = first.1 then (key,value)::rest
    else first::place key value rest

theorem mem_place {entries : List (Key × Value)} (member : pair ∈ place key value entries) :
    pair = (key,value) ∨ pair ∈ entries := by
  induction entries with
  | nil => exact .inl (List.mem_singleton.mp member)
  | cons first rest ih =>
    unfold place at member
    split at member
    · exact List.mem_cons.mp member
    · split at member
      · exact (List.mem_cons.mp member).imp_right (List.mem_cons_of_mem _)
      · rcases List.mem_cons.mp member with rfl | later
        · exact .inr List.mem_cons_self
        · exact (ih later).imp_right (List.mem_cons_of_mem _)

theorem place_sorted {entries : List (Key × Value)} (sorted : entries.Pairwise (·.1 < ·.1)) (key : Key) (value : Value) :
    (place key value entries).Pairwise (·.1 < ·.1) := by
  induction entries with
  | nil => exact List.pairwise_singleton ..
  | cons first rest ih =>
    obtain ⟨least,later⟩ := List.pairwise_cons.mp sorted
    unfold place
    split
    · rename_i below
      refine List.pairwise_cons.mpr ⟨fun pair member => ?_,sorted⟩
      rcases List.mem_cons.mp member with rfl | member
      · exact below
      · exact lt_trans below (least pair member)
    · rename_i notBelow
      split
      · rename_i same
        refine List.pairwise_cons.mpr ⟨fun pair member => ?_,later⟩
        exact lt_of_eq_of_lt same (least pair member)
      · rename_i differs
        refine List.pairwise_cons.mpr ⟨fun pair member => ?_,ih later⟩
        rcases mem_place member with rfl | member
        · exact lt_of_le_of_ne (le_of_not_gt notBelow) (Ne.symm differs)
        · exact least pair member

def put (m : OrderedMap Key Value) (key : Key) (value : Value) : OrderedMap Key Value :=
  ⟨place key value m.entries,place_sorted m.sorted key value⟩

-- The keys from `low` on, up to but not including `high`.
def deleteRange (m : OrderedMap Key Value) (low high : Key) : OrderedMap Key Value :=
  ⟨m.entries.filter fun pair => ¬ (low ≤ pair.1 ∧ pair.1 < high),m.sorted.filter _⟩

-- What an iterator goes through that starts at the first key not below this one.
def seek (m : OrderedMap Key Value) (key : Key) : List (Key × Value) := m.entries.dropWhile fun pair => pair.1 < key

def last? (m : OrderedMap Key Value) : Option (Key × Value) := m.entries.getLast?

section Blocks
variable (key : Nat → Key)

-- Values under the keys of consecutive numbers.
def cells (start : Nat) : List Value → List (Key × Value)
  | [] => []
  | value::rest => (key start,value)::cells (start+1) rest

-- The numbers below the bound have their keys in their own order.
def Ascending (bound : Nat) : Prop := ∀ i j, i < j → j < bound → key i < key j

-- The map holds these values from `start` on, and nothing else.
def Block (m : OrderedMap Key Value) (start : Nat) (values : List Value) : Prop := m.entries = cells key start values

def putFrom (m : OrderedMap Key Value) (start : Nat) : List Value → OrderedMap Key Value
  | [] => m
  | value::rest => putFrom (m.put (key start) value) (start+1) rest

variable {key}

theorem Ascending.lt_iff (ascending : Ascending key bound) (left : i < bound) (right : j < bound) :
    key i < key j ↔ i < j := by
  rcases Nat.lt_trichotomy i j with less | rfl | more
  · exact ⟨fun _ => less,fun _ => ascending i j less right⟩
  · exact ⟨fun wrong => absurd wrong (lt_irrefl _),fun wrong => absurd wrong (Nat.lt_irrefl _)⟩
  · exact ⟨fun wrong => absurd wrong (lt_asymm (ascending j i more left)),fun wrong => absurd wrong (Nat.lt_asymm more)⟩

theorem Ascending.le_iff (ascending : Ascending key bound) (left : i < bound) (right : j < bound) :
    key i ≤ key j ↔ i ≤ j := by
  rw [←not_lt,ascending.lt_iff right left,Nat.not_lt]

omit [LinearOrder Key] in
theorem mem_cells {values : List Value} (member : pair ∈ cells key start values) :
    ∃ i, start ≤ i ∧ i < start+values.length ∧ pair.1 = key i := by
  induction values generalizing start with
  | nil => cases member
  | cons value rest ih =>
    rcases List.mem_cons.mp member with rfl | later
    · exact ⟨start,Nat.le_refl _,Nat.lt_add_of_pos_right (Nat.succ_pos _),rfl⟩
    · obtain ⟨i,above,below,same⟩ := ih later
      exact ⟨i,Nat.le_of_succ_le above,by simp only [List.length_cons]; omega,same⟩

theorem place_cells (ascending : Ascending key bound) (before after : List Value) (value : Value)
    (fits : start+before.length < bound) :
    place (key (start+before.length)) value (cells key start (before++after)) =
      cells key start (before++value::after.drop 1) := by
  induction before generalizing start with
  | nil =>
    cases after with
    | nil => rfl
    | cons first rest =>
      simp only [List.nil_append,cells,place,List.length_nil,Nat.add_zero]
      rw [if_neg (lt_irrefl _),if_pos trivial]
      rfl
  | cons first before ih =>
    have later : start+(first::before).length = start+1+before.length := by rw [List.length_cons]; omega
    rw [later] at fits ⊢
    have above : key start < key (start+1+before.length) := ascending _ _ (by omega) fits
    simp only [List.cons_append,cells,place]
    rw [if_neg (lt_asymm above),if_neg (ne_of_gt above),ih fits]

theorem Block.put (ascending : Ascending key bound) {m : OrderedMap Key Value} (block : Block key m start (before++after))
    (value : Value) (fits : start+before.length < bound) :
    Block key (m.put (key (start+before.length)) value) start (before++value::after.drop 1) := by
  have placed := place_cells ascending before after value fits
  rw [←show m.entries = _ from block] at placed
  exact placed

-- One put after the other, under consecutive numbers.
theorem Block.putFrom (ascending : Ascending key bound) {m : OrderedMap Key Value}
    (block : Block key m start (before++after)) (more : List Value) (fits : start+before.length+more.length ≤ bound) :
    Block key (m.putFrom key (start+before.length) more) start (before++more++after.drop more.length) := by
  induction more generalizing m before after with
  | nil =>
    rw [List.append_nil]
    exact block
  | cons value rest ih =>
    rw [List.length_cons] at fits
    have one := block.put ascending value (by omega)
    rw [←List.singleton_append,←List.append_assoc] at one
    have length : (before++[value]).length = before.length+1 := List.length_append
    have next := ih one (by rw [length]; omega)
    rw [length,List.drop_drop,List.append_assoc before,Nat.add_comm 1] at next
    exact next

theorem filter_cells_from (ascending : Ascending key bound) (values : List Value) (ahead : start ≤ idx)
    (fits : start+values.length ≤ bound) (fits' : idx < bound) :
    (cells key start values).filter (fun pair => ¬ (key 0 ≤ pair.1 ∧ pair.1 < key idx)) =
      cells key idx (values.drop (idx-start)) := by
  induction values generalizing start with
  | nil => rw [List.drop_nil]; rfl
  | cons value rest ih =>
    rw [List.length_cons] at fits
    rcases Nat.eq_or_lt_of_le ahead with rfl | below
    · rw [Nat.sub_self,List.drop_zero]
      refine List.filter_eq_self.mpr fun pair member => ?_
      obtain ⟨i,above,below,same⟩ := mem_cells member
      have kept : ¬ key i < key start := by
        rw [ascending.lt_iff (by rw [List.length_cons] at below; omega) fits']
        omega
      simp [same,kept]
    · have gone : key 0 ≤ key start ∧ key start < key idx :=
        ⟨(ascending.le_iff (by omega) (by omega)).mpr (Nat.zero_le _),ascending _ _ below fits'⟩
      have next : idx-start = (idx-(start+1))+1 := by omega
      rw [next,List.drop_succ_cons,←ih below (by omega)]
      simp [cells,gone]

theorem Block.trim (ascending : Ascending key bound) {m : OrderedMap Key Value} (block : Block key m start values)
    (ahead : start ≤ idx) (fits : start+values.length ≤ bound) (fits' : idx < bound) :
    Block key (m.deleteRange (key 0) (key idx)) idx (values.drop (idx-start)) := by
  have kept := filter_cells_from ascending values ahead fits fits'
  rw [←show m.entries = _ from block] at kept
  exact kept

theorem Block.delete_none {m : OrderedMap Key Value} (block : Block key m start []) (low high : Key) :
    Block key (m.deleteRange low high) start [] := by
  change m.entries.filter _ = []
  rw [show m.entries = [] from block,List.filter_nil]

theorem filter_cells_upTo (ascending : Ascending key bound) (values : List Value) (ahead : start ≤ low)
    (fits : start+values.length ≤ high) (fits' : high < bound) (below : low ≤ high) :
    (cells key start values).filter (fun pair => ¬ (key low ≤ pair.1 ∧ pair.1 < key high)) =
      cells key start (values.take (low-start)) := by
  induction values generalizing start with
  | nil => rw [List.take_nil]; rfl
  | cons value rest ih =>
    rw [List.length_cons] at fits
    rcases Nat.eq_or_lt_of_le ahead with rfl | earlier
    · rw [Nat.sub_self,List.take_zero]
      refine List.filter_eq_nil_iff.mpr fun pair member => ?_
      obtain ⟨i,above,below,same⟩ := mem_cells member
      rw [List.length_cons] at below
      have gone : key start ≤ key i ∧ key i < key high :=
        ⟨(ascending.le_iff (by omega) (by omega)).mpr above,ascending _ _ (by omega) fits'⟩
      simp [same,gone]
    · have kept : ¬ key low ≤ key start := by
        rw [ascending.le_iff (by omega) (by omega)]
        omega
      have next : low-start = (low-(start+1))+1 := by omega
      rw [next,List.take_succ_cons]
      simp only [cells]
      rw [List.filter_cons_of_pos (by simp [kept]),ih earlier (by omega)]

theorem Block.truncate (ascending : Ascending key bound) {m : OrderedMap Key Value} (block : Block key m start values)
    (ahead : start ≤ low) (fits : start+values.length ≤ high) (fits' : high < bound) (below : low ≤ high) :
    Block key (m.deleteRange (key low) (key high)) start (values.take (low-start)) := by
  have kept := filter_cells_upTo ascending values ahead fits fits' below
  rw [←show m.entries = _ from block] at kept
  exact kept

theorem Block.seek (ascending : Ascending key bound) {m : OrderedMap Key Value} (block : Block key m start values)
    (ahead : start ≤ idx) (fits : start+values.length ≤ bound) (fits' : idx < bound) :
    m.seek (key idx) = cells key idx (values.drop (idx-start)) := by
  rw [OrderedMap.seek,show m.entries = _ from block]
  clear block
  induction values generalizing start with
  | nil => rw [List.drop_nil]; rfl
  | cons value rest ih =>
    rw [List.length_cons] at fits
    simp only [cells]
    rcases Nat.eq_or_lt_of_le ahead with rfl | below
    · rw [List.dropWhile_cons_of_neg (by simp),Nat.sub_self,List.drop_zero]
      rfl
    · have next : idx-start = (idx-(start+1))+1 := by omega
      rw [List.dropWhile_cons_of_pos (by simpa using ascending _ _ below fits'),ih below (by omega),next,List.drop_succ_cons]

-- Started at a number below the first one, an iterator goes through everything.
theorem Block.seek_behind (ascending : Ascending key bound) {m : OrderedMap Key Value} (block : Block key m start values)
    (behind : idx ≤ start) (fits : start+values.length ≤ bound) : m.seek (key idx) = cells key start values := by
  rw [OrderedMap.seek,show m.entries = _ from block]
  cases values with
  | nil => rfl
  | cons value rest =>
    rw [List.length_cons] at fits
    have least : ¬ key start < key idx := not_lt.mpr ((ascending.le_iff (by omega) (by omega)).mpr behind)
    simp only [cells]
    rw [List.dropWhile_cons_of_neg (by simpa using least)]

theorem Block.last {m : OrderedMap Key Value} (block : Block key m start values) :
    m.last?.map Prod.fst = if values = [] then none else some (key (start+values.length-1)) := by
  rw [last?,show m.entries = _ from block]
  clear block
  induction values generalizing start with
  | nil => rfl
  | cons value rest ih =>
    cases rest with
    | nil => simp [cells]
    | cons second rest =>
      have later := @ih (start+1)
      simp only [cells,List.getLast?_cons_cons] at later ⊢
      rw [later]
      simp only [List.length_cons,reduceCtorEq,if_false]
      congr 2
      omega

end Blocks
end OrderedMap

-- Byte strings compare from their first byte on.
instance byteOrder : LinearOrder UInt8 := LinearOrder.lift' UInt8.toNat fun _ _ => UInt8.toNat_inj.mp

-- The low bytes of a number, the highest of them first.
def bigEndian : Nat → Nat → List UInt8
  | 0,_ => []
  | width+1,n => UInt8.ofNat (n/256^width)::bigEndian width n

def ofBigEndian (bytes : List UInt8) : Nat := bytes.foldl (fun n byte => 256*n+byte.toNat) 0

theorem length_bigEndian (width n : Nat) : (bigEndian width n).length = width := by
  induction width with
  | zero => rfl
  | succ width ih => rw [bigEndian,List.length_cons,ih]

theorem foldl_bigEndian (width n high : Nat) :
    (bigEndian width n).foldl (fun n byte => 256*n+byte.toNat) high = high*256^width+n%256^width := by
  induction width generalizing high with
  | zero => simp [bigEndian,Nat.mod_one]
  | succ width ih =>
    have byte : (UInt8.ofNat (n/256^width)).toNat = n/256^width%256 := UInt8.toNat_ofNat'
    rw [bigEndian,List.foldl_cons,ih,byte,Nat.pow_succ,Nat.mod_mul]
    ring

theorem ofBigEndian_bigEndian (fits : n < 256^width) : ofBigEndian (bigEndian width n) = n := by
  rw [ofBigEndian,foldl_bigEndian,Nat.zero_mul,Nat.zero_add,Nat.mod_eq_of_lt fits]

theorem bigEndian_lt (less : m%256^width < n%256^width) : bigEndian width m < bigEndian width n := by
  induction width with
  | zero => simp [Nat.mod_one] at less
  | succ width ih =>
    rw [Nat.pow_succ,Nat.mod_mul,Nat.mod_mul] at less
    have low : m%256^width < 256^width := Nat.mod_lt _ (Nat.pow_pos (by decide))
    have low' : n%256^width < 256^width := Nat.mod_lt _ (Nat.pow_pos (by decide))
    have byte : ∀ k : Nat, (UInt8.ofNat k).toNat = k%256 := fun _ => UInt8.toNat_ofNat'
    refine List.cons_lt_cons_iff.mpr ?_
    rcases Nat.lt_trichotomy (m/256^width%256) (n/256^width%256) with below | same | above
    · exact .inl (show (UInt8.ofNat _).toNat < (UInt8.ofNat _).toNat by rw [byte,byte]; exact below)
    · refine .inr ⟨UInt8.toNat_inj.mp (by rw [byte,byte]; exact same),ih ?_⟩
      rw [same] at less
      exact Nat.lt_of_add_lt_add_right less
    · have reached : 256^width*(n/256^width%256+1) ≤ 256^width*(m/256^width%256) := Nat.mul_le_mul_left _ above
      rw [Nat.mul_add,Nat.mul_one] at reached
      omega

theorem ascending_bigEndian (width : Nat) : OrderedMap.Ascending (bigEndian width) (256^width) := by
  intro i j less fits
  refine bigEndian_lt ?_
  rw [Nat.mod_eq_of_lt (Nat.lt_trans less fits),Nat.mod_eq_of_lt fits]
  exact less

end OmniPaxosKV

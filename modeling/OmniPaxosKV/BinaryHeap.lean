import Mathlib.Data.List.Basic
import Mathlib.Data.List.Perm.Basic

-- The array heap of a standard library: the greatest element, for a comparison
-- that may leave elements level, sits at the front. Push sifts up from the end;
-- pop moves the last element to the front, sinks it all the way and sifts it
-- back up, so level elements leave in an order that only these moves decide.
namespace OmniPaxosKV.BinaryHeap
variable {Item : Type}

def parent (pos : Nat) : Nat := (pos-1)/2

def swap (heap : List Item) (left right : Nat) : List Item :=
  match heap[left]?,heap[right]? with
  | some x,some y => (heap.set left y).set right x
  | _,_ => heap

-- `fuel` bounds the climb; the position itself is always enough.
def siftUp (le : Item → Item → Bool) : Nat → List Item → Nat → List Item
  | 0,heap,_ => heap
  | fuel+1,heap,pos =>
    if pos = 0 then heap else
    match heap[pos]?,heap[parent pos]? with
    | some item,some above =>
      if le item above then heap
      else siftUp le fuel (swap heap pos (parent pos)) (parent pos)
    | _,_ => heap

-- The right child is taken when the children are level.
def greaterChild (le : Item → Item → Bool) (heap : List Item) (pos : Nat) : Nat :=
  match heap[2*pos+1]?,heap[2*pos+2]? with
  | some left,some right => if le left right then 2*pos+2 else 2*pos+1
  | _,_ => 2*pos+1

def siftDownToBottom (le : Item → Item → Bool) : Nat → List Item → Nat → List Item
  | 0,heap,_ => heap
  | fuel+1,heap,pos =>
    if 2*pos+1 < heap.length then
      let child := greaterChild le heap pos
      siftDownToBottom le fuel (swap heap pos child) child
    else siftUp le pos heap pos

def push (le : Item → Item → Bool) (heap : List Item) (item : Item) : List Item :=
  siftUp le heap.length (heap++[item]) heap.length

def pop (le : Item → Item → Bool) (heap : List Item) : Option (Item × List Item) :=
  match heap.getLast? with
  | none => none
  | some last =>
    match heap.dropLast with
    | [] => some (last,[])
    | front::rest => some (front,siftDownToBottom le (rest.length+1) (last::rest) 0)

-- Everything in the order in which it is popped.
def drainUpTo (le : Item → Item → Bool) : Nat → List Item → List Item
  | 0,_ => []
  | fuel+1,heap =>
    match pop le heap with
    | none => []
    | some (item,rest) => item::drainUpTo le fuel rest

def drain (le : Item → Item → Bool) (heap : List Item) : List Item := drainUpTo le heap.length heap

theorem swap_eq (heap : List Item) (inLeft : left < heap.length) (inRight : right < heap.length) :
    swap heap left right = (heap.set left heap[right]).set right heap[left] := by
  simp [swap,inLeft,inRight]

@[simp] theorem length_swap (heap : List Item) : (swap heap left right).length = heap.length := by
  unfold swap
  split <;> simp

theorem getElem?_swap (heap : List Item) (inLeft : left < heap.length) (inRight : right < heap.length) :
    (swap heap left right)[pos]? =
      if pos = left then heap[right]? else if pos = right then heap[left]? else heap[pos]? := by
  rw [swap_eq heap inLeft inRight]
  grind

theorem swap_perm (heap : List Item) : (swap heap left right).Perm heap := by
  unfold swap
  split
  · rename_i x y foundLeft foundRight
    obtain ⟨inLeft,atLeft⟩ := List.getElem?_eq_some_iff.mp foundLeft
    obtain ⟨inRight,atRight⟩ := List.getElem?_eq_some_iff.mp foundRight
    have swapped := @Array.swap_perm _ heap.toArray left right (by simpa) (by simpa)
    simpa [Array.swap,Array.perm_iff_toList_perm,atLeft,atRight] using swapped
  · exact List.Perm.refl _

theorem siftUp_perm (le : Item → Item → Bool) (fuel : Nat) (heap : List Item) (pos : Nat) :
    (siftUp le fuel heap pos).Perm heap := by
  fun_induction siftUp le fuel heap pos with
  | case4 fuel heap pos _ item above _ _ _ ih => exact ih.trans (swap_perm heap)
  | _ => exact List.Perm.refl _

theorem siftDownToBottom_perm (le : Item → Item → Bool) (fuel : Nat) (heap : List Item) (pos : Nat) :
    (siftDownToBottom le fuel heap pos).Perm heap := by
  fun_induction siftDownToBottom le fuel heap pos with
  | case1 heap => exact List.Perm.refl _
  | case2 fuel heap pos _ child ih => exact ih.trans (swap_perm heap)
  | case3 fuel heap pos => exact siftUp_perm le pos heap pos

theorem push_perm (le : Item → Item → Bool) (heap : List Item) (item : Item) :
    (push le heap item).Perm (item::heap) :=
  (siftUp_perm ..).trans (List.perm_append_singleton item heap)

-- A heap of one item is popped empty; a longer one has its last item put in front and
-- sifted down.
theorem pop_cases (popped : pop le heap = some (item,rest)) :
    (heap = [item] ∧ rest = []) ∨
    ∃ last others, heap = item::(others++[last]) ∧
      rest = siftDownToBottom le (others.length+1) (last::others) 0 := by
  unfold pop at popped
  split at popped
  · cases popped
  · rename_i last found
    have whole : heap = heap.dropLast++[last] := (List.dropLast_append_getLast? last found).symm
    split at popped
    · rename_i empty
      cases Option.some.inj popped
      rw [empty] at whole
      exact .inl ⟨whole,rfl⟩
    · rename_i front others split
      cases Option.some.inj popped
      rw [split] at whole
      exact .inr ⟨last,others,whole,rfl⟩

theorem pop_none (empty : pop le heap = none) : heap = [] := by
  unfold pop at empty
  split at empty
  · rename_i none
    exact List.getLast?_eq_none_iff.mp none
  · split at empty <;> cases empty

theorem pop_perm (popped : pop le heap = some (item,rest)) : heap.Perm (item::rest) := by
  obtain ⟨rfl,rfl⟩ | ⟨last,others,rfl,rfl⟩ := pop_cases popped
  · exact .refl _
  · exact ((List.perm_append_singleton last others).trans (siftDownToBottom_perm ..).symm).cons _

theorem drain_pop (popped : pop le heap = some (item,rest)) : drain le heap = item::drain le rest := by
  have length := (pop_perm popped).length_eq
  rw [List.length_cons] at length
  rw [drain,length,drainUpTo,popped]
  rfl

-- Induction along the pops.
theorem pop_induction (le : Item → Item → Bool) {motive : List Item → Prop} (empty : motive [])
    (pops : ∀ heap item rest, pop le heap = some (item,rest) → motive rest → motive heap) (heap : List Item) :
    motive heap := by
  generalize size : heap.length = count
  induction count generalizing heap with
  | zero =>
    rw [List.length_eq_zero_iff.mp size]
    exact empty
  | succ count ih =>
    cases popped : pop le heap with
    | none =>
      rw [pop_none popped] at size
      cases size
    | some pair =>
      have fewer : pair.2.length = count := by simpa [size] using (pop_perm popped).length_eq.symm
      exact pops heap pair.1 pair.2 popped (ih pair.2 fewer)

theorem drain_perm (le : Item → Item → Bool) (heap : List Item) : (drain le heap).Perm heap := by
  induction heap using pop_induction le with
  | empty => exact .refl _
  | pops heap item rest popped ih =>
    rw [drain_pop popped]
    exact (ih.cons item).trans (pop_perm popped).symm

-- The pair of a position and its parent is in order.
def Edge (le : Item → Item → Bool) (heap : List Item) (pos : Nat) : Prop :=
  ∀ item above, heap[pos]? = some item → heap[parent pos]? = some above → le item above = true

def Ordered (le : Item → Item → Bool) (heap : List Item) : Prop :=
  ∀ pos, 0 < pos → Edge le heap pos

-- Skipping over the moving item at `hole`: its children are in order with its parent.
def Bridged (le : Item → Item → Bool) (heap : List Item) (hole : Nat) : Prop :=
  ∀ pos item above, 0 < pos → parent pos = hole → 0 < hole →
    heap[pos]? = some item → heap[parent hole]? = some above → le item above = true

theorem parent_lt (positive : 0 < pos) : parent pos < pos := by unfold parent; omega

theorem parent_child (child : pos = 2*hole+1 ∨ pos = 2*hole+2) : parent pos = hole := by unfold parent; omega

theorem child_of_parent (positive : 0 < pos) (below : parent pos = hole) : pos = 2*hole+1 ∨ pos = 2*hole+2 := by
  unfold parent at below; omega

section Order
variable {le : Item → Item → Bool}
  (total : ∀ x y, le x y = true ∨ le y x = true)
  (trans : ∀ x y z, le x y = true → le y z = true → le x z = true)
include total trans

-- Climbing: only the edge above the moving item may be out of order.
theorem siftUp_ordered (fuel : Nat) (heap : List Item) (pos : Nat) (inside : pos < heap.length)
    (enough : pos ≤ fuel) (others : ∀ k, 0 < k → k ≠ pos → Edge le heap k) (bridged : Bridged le heap pos) :
    Ordered le (siftUp le fuel heap pos) := by
  fun_induction siftUp le fuel heap pos with
  | case1 heap pos =>
    intro k positive
    exact others k positive (by omega)
  | case2 fuel heap => intro k positive; exact others k positive (by omega)
  | case3 fuel heap pos nonzero item above foundAbove found below =>
    intro k positive
    by_cases same : k = pos
    · subst k
      intro x y atPos atParent
      rw [found] at atPos; rw [foundAbove] at atParent
      cases atPos; cases atParent
      exact below
    · exact others k positive same
  | case4 fuel heap pos nonzero item above foundAbove found below ih =>
    have up : parent pos < pos := parent_lt (Nat.pos_of_ne_zero nonzero)
    have beyond : le above item = true := (total item above).resolve_left below
    have moved := fun k => @getElem?_swap _ _ _ k heap inside (Nat.lt_trans up inside)
    -- Everything that was under the old parent stays under the item that took its place.
    apply ih (by simpa using Nat.lt_trans up inside) (by omega)
    · intro k positive apart x y atK atParent
      rw [moved] at atK atParent
      by_cases same : k = pos
      · subst k
        rw [if_pos rfl,foundAbove] at atK
        rw [if_neg (by omega),if_pos rfl,found] at atParent
        cases atK; cases atParent
        exact beyond
      · rw [if_neg same,if_neg apart] at atK
        by_cases child : parent k = pos
        · rw [if_pos child,foundAbove] at atParent
          cases atParent
          exact bridged k x above positive child (Nat.pos_of_ne_zero nonzero) atK foundAbove
        · rw [if_neg child] at atParent
          by_cases sibling : parent k = parent pos
          · rw [if_pos sibling,found] at atParent
            cases atParent
            exact trans x above item (others k positive same x above atK (sibling ▸ foundAbove)) beyond
          · rw [if_neg sibling] at atParent
            exact others k positive same x y atK atParent
    · intro k x y positive below' upper atK atGrand
      have higher : parent (parent pos) < parent pos := parent_lt upper
      rw [moved] at atK atGrand
      rw [if_neg (by omega),if_neg (by omega)] at atGrand
      have aboveOk : le above y = true :=
        others (parent pos) upper (by omega) above y foundAbove atGrand
      by_cases same : k = pos
      · subst k
        rw [if_pos rfl,foundAbove] at atK
        cases atK
        exact aboveOk
      · rw [if_neg same,if_neg (by have := parent_lt positive; omega)] at atK
        exact trans x above y (others k positive same x above atK (below' ▸ foundAbove)) aboveOk
  | case5 fuel heap pos nonzero missing =>
    have up : parent pos < heap.length := Nat.lt_trans (parent_lt (Nat.pos_of_ne_zero nonzero)) inside
    exact absurd (List.getElem?_eq_getElem up)
      (missing _ _ (List.getElem?_eq_getElem inside))

omit trans in
theorem greaterChild_spec (heap : List Item) (inside : 2*pos+1 < heap.length) :
    greaterChild le heap pos < heap.length ∧
    (greaterChild le heap pos = 2*pos+1 ∨ greaterChild le heap pos = 2*pos+2) ∧
    ∀ k item chosen, 0 < k → parent k = pos → heap[k]? = some item →
      heap[greaterChild le heap pos]? = some chosen → le item chosen = true := by
  have reflexive : ∀ x, le x x = true := fun x => (total x x).elim id id
  unfold greaterChild
  split
  · rename_i left right foundLeft foundRight
    have bound := (List.getElem?_eq_some_iff.mp foundRight).1
    split
    · rename_i below
      refine ⟨bound,.inr rfl,?_⟩
      intro k item chosen positive under atK atChosen
      rcases child_of_parent positive under with rfl | rfl <;> grind
    · rename_i above
      have beyond : le right left = true := (total left right).resolve_left above
      refine ⟨inside,.inl rfl,?_⟩
      intro k item chosen positive under atK atChosen
      rcases child_of_parent positive under with rfl | rfl <;> grind
  · rename_i missing
    refine ⟨inside,.inl rfl,?_⟩
    intro k item chosen positive under atK atChosen
    rcases child_of_parent positive under with rfl | rfl
    · grind
    · exact absurd atK (missing chosen item atChosen)

-- Sinking: no edge at the moving item is promised, and none is needed until it
-- reaches the bottom, where it has no children left.
theorem siftDownToBottom_ordered (fuel : Nat) (heap : List Item) (pos : Nat) (inside : pos < heap.length)
    (enough : heap.length ≤ fuel+pos) (others : ∀ k, 0 < k → k ≠ pos → parent k ≠ pos → Edge le heap k)
    (bridged : Bridged le heap pos) : Ordered le (siftDownToBottom le fuel heap pos) := by
  fun_induction siftDownToBottom le fuel heap pos with
  | case1 heap pos => omega
  | case2 fuel heap pos hasChild child ih =>
    obtain ⟨bound,which,greatest⟩ := greaterChild_spec total heap hasChild
    change child < heap.length at bound
    change child = _ ∨ child = _ at which
    change ∀ k item chosen, _ → _ → _ → heap[child]? = some chosen → _ at greatest
    clear_value child
    have under : parent child = pos := parent_child which
    have moved := fun k => @getElem?_swap _ _ _ k heap inside bound
    apply ih (by simpa using bound) (by simp only [length_swap]; omega)
    · intro k positive apart notBelow x y atK atParent
      rw [moved] at atK atParent
      rw [if_neg notBelow] at atParent
      by_cases same : k = pos
      · subst k
        rw [if_pos rfl] at atK
        rw [if_neg (by have := parent_lt positive; omega)] at atParent
        exact bridged child x y (by omega) under positive atK atParent
      · rw [if_neg same,if_neg apart] at atK
        by_cases sibling : parent k = pos
        · rw [if_pos sibling] at atParent
          exact greatest k x y positive sibling atK atParent
        · rw [if_neg sibling] at atParent
          exact others k positive same sibling x y atK atParent
    · intro k x y positive below _ atK atGrand
      have deeper := parent_lt positive
      rw [moved] at atK atGrand
      rw [under,if_pos rfl] at atGrand
      rw [if_neg (by omega),if_neg (by omega)] at atK
      exact others k positive (by omega) (by omega) x y atK (below ▸ atGrand)
  | case3 fuel heap pos bottom =>
    have childless : ∀ k, 0 < k → parent k = pos → heap[k]? = none := by
      intro k positive under
      rcases child_of_parent positive under with rfl | rfl <;>
        exact List.getElem?_eq_none (by omega)
    apply siftUp_ordered total trans pos heap pos inside (Nat.le_refl _)
    · intro k positive apart x y atK atParent
      by_cases under : parent k = pos
      · rw [childless k positive under] at atK; cases atK
      · exact others k positive apart under x y atK atParent
    · intro k x y positive under _ atK _
      rw [childless k positive under] at atK; cases atK

omit total trans in
theorem ordered_nil : Ordered le [] := by
  intro pos _ x y atPos
  simp at atPos

theorem push_ordered (heap : List Item) (item : Item) (ordered : Ordered le heap) :
    Ordered le (push le heap item) := by
  apply siftUp_ordered total trans
  · simp
  · exact Nat.le_refl _
  · intro k positive apart x y atK atParent
    have short : k < heap.length := by
      have := (List.getElem?_eq_some_iff.mp atK).1
      simp only [List.length_append,List.length_singleton] at this
      omega
    rw [List.getElem?_append_left short] at atK
    rw [List.getElem?_append_left (Nat.lt_trans (parent_lt positive) short)] at atParent
    exact ordered k positive x y atK atParent
  · intro k x y positive under _ atK _
    have := (List.getElem?_eq_some_iff.mp atK).1
    have := parent_lt positive
    simp only [List.length_append,List.length_singleton] at *
    omega

-- The front of an ordered heap is at least every item of it.
theorem front_greatest (heap : List Item) (ordered : Ordered le heap) (front : heap[0]? = some greatest)
    (member : item ∈ heap) : le item greatest = true := by
  obtain ⟨pos,bound,rfl⟩ := List.mem_iff_getElem.mp member
  induction pos using Nat.strongRecOn with
  | ind pos ih =>
    by_cases zero : pos = 0
    · subst pos
      rw [List.getElem?_eq_getElem bound] at front
      cases front
      exact (total _ _).elim id id
    · have up := parent_lt (Nat.pos_of_ne_zero zero)
      have upBound := Nat.lt_trans up bound
      have step := ordered pos (Nat.pos_of_ne_zero zero) _ _ (List.getElem?_eq_getElem bound)
        (List.getElem?_eq_getElem upBound)
      exact trans _ _ _ step (ih _ up upBound (List.getElem_mem upBound))

theorem pop_ordered (ordered : Ordered le heap) (popped : pop le heap = some (item,rest)) :
    Ordered le rest := by
  obtain ⟨rfl,rfl⟩ | ⟨last,others,rfl,rfl⟩ := pop_cases popped
  · exact ordered_nil
  · have kept : ∀ k, k < (item::others).length → 0 < k → (last::others)[k]? = (item::(others++[last]))[k]? := by
      intro k bound positive
      cases k with
      | zero => omega
      | succ k => exact (List.getElem?_append_left (Nat.lt_of_succ_lt_succ bound)).symm
    apply siftDownToBottom_ordered total trans _ _ _ (by simp) (by simp)
    · intro k positive _ notBelow x y atK atParent
      have bound := (List.getElem?_eq_some_iff.mp atK).1
      simp only [List.length_cons] at bound
      have up := parent_lt positive
      rw [kept k (by simpa using bound) positive] at atK
      rw [kept _ (by simp only [List.length_cons]; omega) (by omega)] at atParent
      exact ordered k positive x y atK atParent
    · intro k x y _ _ impossible
      omega

theorem pop_greatest (ordered : Ordered le heap) (popped : pop le heap = some (item,rest))
    (member : other ∈ heap) : le other item = true := by
  apply front_greatest total trans heap ordered _ member
  obtain ⟨rfl,rfl⟩ | ⟨last,others,rfl,rfl⟩ := pop_cases popped
  · rfl
  · rfl

theorem drain_sorted (heap : List Item) (ordered : Ordered le heap) :
    (drain le heap).Pairwise fun x y => le y x = true := by
  induction heap using pop_induction le with
  | empty => exact .nil
  | pops heap item rest popped ih =>
    rw [drain_pop popped]
    refine .cons ?_ (ih (pop_ordered total trans ordered popped))
    intro other member
    have left : other ∈ rest := (drain_perm le rest).mem_iff.mp member
    exact pop_greatest total trans ordered popped ((pop_perm popped).mem_iff.mpr (List.mem_cons_of_mem _ left))

end Order

-- Exchanging items that the comparison does not tell apart commutes with everything.
section Exchange
variable {le : Item → Item → Bool} {f : Item → Item} (same : ∀ x y, le (f x) (f y) = le x y)

theorem swap_map (f : Item → Item) (heap : List Item) (left right : Nat) :
    swap (heap.map f) left right = (swap heap left right).map f := by
  simp only [swap,List.getElem?_map]
  cases heap[left]? <;> cases heap[right]? <;> simp [List.map_set]

include same

theorem siftUp_map (fuel : Nat) (heap : List Item) (pos : Nat) :
    siftUp le fuel (heap.map f) pos = (siftUp le fuel heap pos).map f := by
  induction fuel generalizing heap pos with
  | zero => rfl
  | succ fuel ih =>
    simp only [siftUp,List.getElem?_map]
    split
    · rfl
    · cases heap[pos]? with
      | none => rfl
      | some item =>
        cases heap[parent pos]? with
        | none => rfl
        | some above =>
          simp only [Option.map_some,same,swap_map,ih]
          split <;> rfl

theorem greaterChild_map (heap : List Item) (pos : Nat) : greaterChild le (heap.map f) pos = greaterChild le heap pos := by
  simp only [greaterChild,List.getElem?_map]
  cases heap[2*pos+1]? <;> cases heap[2*pos+2]? <;> simp [same]

theorem siftDownToBottom_map (fuel : Nat) (heap : List Item) (pos : Nat) :
    siftDownToBottom le fuel (heap.map f) pos = (siftDownToBottom le fuel heap pos).map f := by
  induction fuel generalizing heap pos with
  | zero => rfl
  | succ fuel ih =>
    simp only [siftDownToBottom,List.length_map,greaterChild_map same,swap_map,ih,siftUp_map same]
    split <;> rfl

theorem push_map (heap : List Item) (item : Item) : push le (heap.map f) (f item) = (push le heap item).map f := by
  have grown : heap.map f++[f item] = (heap++[item]).map f := by simp
  simp only [push,List.length_map,grown,siftUp_map same]

theorem pop_map (heap : List Item) : pop le (heap.map f) = (pop le heap).map fun pair => (f pair.1,pair.2.map f) := by
  simp only [pop,List.getLast?_map]
  cases heap.getLast? with
  | none => rfl
  | some last =>
    simp only [Option.map_some,←List.map_dropLast]
    cases heap.dropLast with
    | nil => rfl
    | cons front rest =>
      have sunk := siftDownToBottom_map same (rest.length+1) (last::rest) 0
      rw [List.map_cons] at sunk
      simp only [List.map_cons,List.length_map,Option.map_some,sunk]

theorem drain_map (heap : List Item) : drain le (heap.map f) = (drain le heap).map f := by
  simp only [drain,List.length_map]
  generalize heap.length = fuel
  induction fuel generalizing heap with
  | zero => rfl
  | succ fuel ih =>
    simp only [drainUpTo,pop_map same]
    cases pop le heap with
    | none => rfl
    | some pair => simp only [Option.map_some,ih,List.map_cons]

end Exchange
end OmniPaxosKV.BinaryHeap

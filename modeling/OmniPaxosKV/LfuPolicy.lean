import OmniPaxosKV.LfuCache

-- The whole interface of the least-frequently-used cache, which the field caches
-- use only in part, against the policy that it stands for.
namespace OmniPaxosKV

-- `getMut` hands out a reference; `change` is what the caller does through it.
inductive LfuRequest (K V : Type) where
  | contains (key : K)
  | len
  | isEmpty
  | index (key : K)
  | get (key : K)
  | getMut (key : K) (change : V → V)
  | set (key : K) (value : V)
  | remove (key : K)
  | evictAndReturnKey
  | evictAndReturnValue

inductive LfuReply (K V : Type) where
  | flag (held : Bool)
  | count (length : Nat)
  | key (key : Option K)
  | value (value : Option V)
  | done
  deriving DecidableEq

namespace LFUCache
variable {H : Type → Type} [LinkedHashSet H] {K V : Type} [DecidableEq K]

omit [LinkedHashSet H] in
def contains (key : K) (c : LFUCache H K V) : Bool := (c.counter key).isSome

omit [LinkedHashSet H] [DecidableEq K] in
def isEmpty (c : LFUCache H K V) : Bool := c.values.isEmpty

-- Indexing with a key that is not held panics.
omit [LinkedHashSet H] in
def index (key : K) (c : LFUCache H K V) : Option V := (c.counter key).map ValueCounter.value

def getMut (key : K) (change : V → V) (c : LFUCache H K V) : Option (Option V × LFUCache H K V) := do
  let c ← c.updateFrequencyBin key
  match c.counter key with
  | none => return (none,c)
  | some counter => return (some counter.value,c.insertValue key {counter with value:=change counter.value})

def remove (key : K) (c : LFUCache H K V) : Option V × LFUCache H K V :=
  match c.counter key with
  | none => (none,c)
  | some counter =>
    let bin := LinkedHashSet.remove key ((c.frequencyBin counter.count).getD LinkedHashSet.empty)
    (some counter.value,{c with frequencyBin:=c.frequencyBin.insert counter.count bin}.removeValue key)

-- No answer where the call panics.
def call (c : LFUCache H K V) : LfuRequest K V → Option (LfuReply K V × LFUCache H K V)
  | .contains key => some (.flag (c.contains key),c)
  | .len => some (.count c.len,c)
  | .isEmpty => some (.flag c.isEmpty,c)
  | .index key => (c.index key).map fun value => (.value (some value),c)
  | .get key => (c.get key).map fun (value,c) => (.value value,c)
  | .getMut key change => (c.getMut key change).map fun (value,c) => (.value value,c)
  | .set key value => (c.set key value).map fun c => (.done,c)
  | .remove key => let (value,c) := c.remove key; some (.value value,c)
  | .evictAndReturnKey => c.evictAndReturnKey.map fun (key,c) => (.key key,c)
  | .evictAndReturnValue => c.evictAndReturnValue.map fun (value,c) => (.value value,c)

end LFUCache

-- The policy: entries in the order in which they came to their use counts, and the
-- count at which the next one is given up. None is set before an entry comes in.
structure Usage (K V : Type) where
  cells : List (Cell K V) := []
  lowest : Nat := 0

namespace Usage
variable {K V : Type} [DecidableEq K]

def find (key : K) (u : Usage K V) : Option (Cell K V) := u.cells.find? fun cell => cell.key = key

def without (key : K) (u : Usage K V) : Usage K V := {u with cells:=u.cells.filter fun cell => cell.key ≠ key}

-- The least count follows an entry that was the last of it.
def raise (cell : Cell K V) (value : V) (u : Usage K V) : Usage K V where
  cells := (u.without cell.key).cells++[⟨cell.key,value,cell.uses+1⟩]
  lowest := if cell.uses = u.lowest ∧ ∀ other ∈ (u.without cell.key).cells, other.uses ≠ cell.uses then u.lowest+1 else u.lowest

-- Nothing was ever held, or the first entry of the least count goes. A least count
-- that no entry has is one that an earlier removal left behind.
def evict (u : Usage K V) : Option (Option (Cell K V) × Usage K V) :=
  if u.lowest = 0 then some (none,u)
  else (u.cells.find? fun cell => cell.uses = u.lowest).map fun cell => (some cell,u.without cell.key)

def set (size : Nat) (key : K) (value : V) (u : Usage K V) : Option (Usage K V) :=
  match u.find key with
  | some cell => some (u.raise cell value)
  | none => do
    let u ← if size ≤ u.cells.length then u.evict.map Prod.snd else some u
    return ⟨u.cells++[⟨key,value,1⟩],1⟩

def call (size : Nat) (u : Usage K V) : LfuRequest K V → Option (LfuReply K V × Usage K V)
  | .contains key => some (.flag (u.find key).isSome,u)
  | .len => some (.count u.cells.length,u)
  | .isEmpty => some (.flag u.cells.isEmpty,u)
  | .index key => (u.find key).map fun cell => (.value (some cell.value),u)
  | .get key => some (match u.find key with
    | none => (.value none,u)
    | some cell => (.value (some cell.value),u.raise cell cell.value))
  | .getMut key change => some (match u.find key with
    | none => (.value none,u)
    | some cell => (.value (some cell.value),u.raise cell (change cell.value)))
  | .set key value => (u.set size key value).map fun u => (.done,u)
  | .remove key => some (.value ((u.find key).map Cell.value),u.without key)
  | .evictAndReturnKey => u.evict.map fun (cell,u) => (.key (cell.map Cell.key),u)
  | .evictAndReturnValue => u.evict.map fun (cell,u) => (.value (cell.map Cell.value),u)

end Usage

namespace LFUCache
open LawfulLinkedHashSet
variable {H : Type → Type} [LinkedHashSet H] {K V : Type} {size : Nat} {c next : LFUCache H K V} {u : Usage K V}

-- How the cache stands for the policy's entries. While it is full, the least count
-- is that of an entry; the bin of the least count was made once there was an entry.
structure Follows (size : Nat) (c : LFUCache H K V) (u : Usage K V) : Prop extends HoldsBins size c u.cells where
  lowest : c.minFrequency = u.lowest
  least : ∀ cell ∈ u.cells, u.lowest ≤ cell.uses
  room : u.cells.length ≤ size
  full : u.cells.length = size → ∃ cell ∈ u.cells, cell.uses = u.lowest
  unmade : u.lowest = 0 → ∀ count, c.frequencyBin count = none
  made : u.lowest ≠ 0 → c.frequencyBin u.lowest ≠ none

variable [DecidableEq K]

theorem without_split (distinct : (u.cells.map Cell.key).Nodup) (same : u.cells = before++cell::after) :
    (u.without cell.key).cells = before++after := by
  rw [same] at distinct
  rw [Usage.without,same]
  exact Keyed.filter_split distinct

theorem without_fewer (member : cell ∈ u.cells) : (u.without cell.key).cells.length < u.cells.length :=
  List.length_filter_lt_length_iff_exists.mpr ⟨cell,member,by simp⟩

theorem find_without : (u.without key).find key = none := by
  refine Keyed.find_none_iff.mpr ?_
  simp [Usage.without]

theorem find_without_ne (apart : other ≠ key) : (u.without key).find other = u.find other := by
  rw [Usage.find,Usage.without,List.find?_filter]
  refine congrArg (List.find? · u.cells) ?_
  funext cell
  by_cases same : cell.key = other
  · simp [same,apart]
  · simp [same]

theorem find_split (distinct : (u.cells.map Cell.key).Nodup) (found : u.find key = some cell) :
    cell.key = key ∧ ∃ before after, u.cells = before++cell::after ∧ (u.without key).cells = before++after := by
  obtain ⟨member,rfl⟩ := (Keyed.find_iff distinct).mp found
  obtain ⟨before,after,same⟩ := List.append_of_mem member
  exact ⟨rfl,before,after,same,without_split distinct same⟩

theorem Follows.counter_eq (follows : Follows size c u) (key : K) :
    c.counter key = (u.find key).map fun cell => ⟨cell.value,cell.uses⟩ := by
  cases found : u.find key with
  | none => exact follows.counter_none (Keyed.find_none_iff.mp found)
  | some cell =>
    obtain ⟨member,rfl⟩ := (Keyed.find_iff follows.keys).mp found
    exact follows.counter_mem cell member

-- A value that is written leaves its key in its bin.
theorem HoldsBins.revalued {cell : Cell K V} (holds : HoldsBins size c (before++cell::after)) (value : V) :
    HoldsBins size (c.insertValue cell.key ⟨value,cell.uses⟩) (before++{cell with value:=value}::after) := by
  have middle : (before++{cell with value:=value}::after).map Cell.key = (before++cell::after).map Cell.key := by
    simp only [List.map_append,List.map_cons]
  refine ⟨holds.capacity,?_,middle ▸ holds.keys,?_,?_⟩
  · have moved : (entry {cell with value:=value}::(c.removeValue cell.key).values).Perm
        (({cell with value:=value}::(before++after)).map entry) := holds.values_removed.cons _
    exact moved.trans (List.perm_middle.map entry).symm
  · intro other member
    rcases List.mem_append.mp member with earlier | member
    · exact holds.used other (List.mem_append_left _ earlier)
    · rcases List.mem_cons.mp member with rfl | later
      · exact holds.used cell (List.mem_append_right _ List.mem_cons_self)
      · exact holds.used other (List.mem_append_right _ (List.mem_cons_of_mem _ later))
  · intro count
    refine (holds.bins count).trans ?_
    rw [usedTimes_split,usedTimes_split]
    split
    · simp only [List.map_append,List.map_cons]
    · rfl

theorem Follows.revalued (follows : Follows size c u) (same : u.cells = before++cell::after) (value : V) :
    Follows size (c.insertValue cell.key ⟨value,cell.uses⟩) {u with cells:=before++{cell with value:=value}::after} := by
  have bins := follows.toHoldsBins
  rw [same] at bins
  have count : (before++{cell with value:=value}::after).length = u.cells.length := by
    rw [same,List.length_append,List.length_append,List.length_cons,List.length_cons]
  have uses : ∀ bound : Nat → Prop, (∀ other ∈ before++{cell with value:=value}::after, bound other.uses) ↔
      ∀ other ∈ u.cells, bound other.uses := by
    intro bound
    simp only [same,List.mem_append,List.mem_cons,or_imp,forall_and,forall_eq]
  refine ⟨bins.revalued value,follows.lowest,(uses _).mpr follows.least,count ▸ follows.room,?_,follows.unmade,follows.made⟩
  intro full
  by_contra none
  have apart := (uses fun count => count ≠ u.lowest).mp fun other member equal => none ⟨other,member,equal⟩
  obtain ⟨other,member,equal⟩ := follows.full (count ▸ full)
  exact apart other member equal

omit [DecidableEq K] in
theorem Follows.empty (follows : Follows size c u) (unset : u.lowest = 0) : u.cells = [] := by
  refine List.eq_nil_iff_forall_not_mem.mpr ?_
  intro cell member
  have listed : cell.key ∈ c.bin cell.uses := by
    rw [follows.bins]
    exact List.mem_map_of_mem (List.mem_filter.mpr ⟨member,decide_eq_true rfl⟩)
  rw [bin,follows.unmade unset] at listed
  cases listed

-- A cache that is full keeps what the field caches rely on.
omit [DecidableEq K] in
theorem Follows.holdsCells (follows : Follows size c u) (attained : u.cells ≠ [] → ∃ cell ∈ u.cells, cell.uses = u.lowest) :
    HoldsCells size c u.cells := by
  refine ⟨follows.toHoldsBins,?_,?_⟩ <;> rw [follows.lowest]
  · exact attained
  · exact follows.least

variable [LawfulLinkedHashSet H]

theorem Follows.raised (follows : Follows size c u) (found : u.find key = some cell) :
    ∃ next, c.updateFrequencyBin key = some next ∧ Follows size next (u.raise cell cell.value) := by
  obtain ⟨rfl,before,after,same,others⟩ := find_split follows.keys found
  have held := follows.least
  have room := follows.room
  have full := follows.full
  have bins := follows.toHoldsBins
  rw [same] at held room full bins
  obtain ⟨next,updated,bins,lowest,made⟩ := bins.renewed
  rw [follows.lowest] at lowest
  have minimal := held cell (List.mem_append_right _ List.mem_cons_self)
  have part : ∀ other ∈ before++after, other ∈ before++cell::after :=
    ((List.Sublist.refl before).append (List.sublist_cons_self cell after)).subset
  have count : (before++after++[(⟨cell.key,cell.value,cell.uses+1⟩ : Cell K V)]).length = (before++cell::after).length := by
    simp only [List.length_append,List.length_cons,List.length_nil]
    omega
  have raises : u.raise cell cell.value = ⟨before++after++[⟨cell.key,cell.value,cell.uses+1⟩],next.minFrequency⟩ := by
    rw [Usage.raise,others,lowest]
  rw [raises]
  refine ⟨next,updated,bins,rfl,?_,count ▸ room,?_,?_,?_⟩
  · intro other member
    change next.minFrequency ≤ other.uses
    rw [lowest]
    rcases List.mem_append.mp member with earlier | last
    · have below := held other (part other earlier)
      split
      · rename_i alone
        have apart := alone.2 other earlier
        omega
      · exact below
    · rw [List.mem_singleton.mp last]
      split
      · exact Nat.succ_le_succ minimal
      · exact Nat.le_succ_of_le minimal
  · -- A full cache is one of the kind that the field caches use.
    intro filled
    have attained := full (count ▸ filled)
    have cells : HoldsCells size c (before++cell::after) := by
      rw [←same]
      exact follows.holdsCells fun _ => same ▸ attained
    obtain ⟨_,again,renewed⟩ := cells.renewed
    cases updated.symm.trans again
    exact renewed.attained (List.append_ne_nil_of_right_ne_nil _ (List.cons_ne_nil _ _))
  · intro unset
    change next.minFrequency = 0 at unset
    rw [lowest] at unset
    have zero : u.lowest = 0 := by
      split at unset
      · cases unset
      · exact unset
    have empty := follows.empty zero
    rw [same] at empty
    exact absurd empty (List.append_ne_nil_of_right_ne_nil _ (List.cons_ne_nil _ _))
  · intro set none
    change next.frequencyBin next.minFrequency = Option.none at none
    obtain ⟨absent,apart⟩ := (made _).mp none
    rw [lowest] at absent apart
    change next.minFrequency ≠ 0 at set
    rw [lowest] at set
    split at absent
    · rename_i alone
      rw [if_pos alone,alone.1] at apart
      exact apart rfl
    · rename_i stays
      rw [if_neg stays] at set
      exact follows.made set absent

-- Removing an entry may leave the least count behind.
omit [LawfulLinkedHashSet H] in
theorem Follows.removed (follows : Follows size c u) (found : u.find key = some cell) {h : H K}
    (listed : LinkedHashSet.toList h = (c.bin cell.uses).filter fun other => other ≠ key) :
    Follows size (c.withoutKey key cell.uses h) (u.without key) := by
  obtain ⟨rfl,before,after,same,others⟩ := find_split follows.keys found
  have bins := follows.toHoldsBins
  have member : cell ∈ u.cells := same ▸ List.mem_append_right _ List.mem_cons_self
  have fewer := without_fewer member
  have room := follows.room
  rw [same] at bins
  refine ⟨?_,follows.lowest,?_,by omega,fun full => by omega,?_,?_⟩
  · rw [others]
    exact bins.without listed
  · exact fun other member => follows.least other (List.filter_sublist.subset member)
  · intro unset
    rw [follows.empty unset] at member
    cases member
  · intro set none
    have made := follows.made set
    change (c.frequencyBin.insert cell.uses h) u.lowest = Option.none at none
    rw [KeyMap.insert_apply] at none
    split at none
    · cases none
    · exact made none

-- Nothing was ever set, or no key has the least count any more, or the first one
-- of those that have it goes.
theorem Follows.evicted (follows : Follows size c u) :
    (u.evict = some (none,u) ∧ c.evictAndReturnKey = some (none,c) ∧ c.evictAndReturnValue = some (none,c)) ∨
    (u.evict = none ∧ c.evictAndReturnKey = none ∧ c.evictAndReturnValue = none) ∨
    ∃ cell left, u.evict = some (some cell,u.without cell.key) ∧ cell ∈ u.cells ∧ cell.uses = u.lowest ∧
      c.bin u.lowest = cell.key::(c.bin u.lowest).tail ∧ c.evict = some left ∧
      c.evictAndReturnKey = some (some cell.key,left) ∧ c.evictAndReturnValue = some (some cell.value,left) ∧
      Follows size left (u.without cell.key) := by
  by_cases unset : u.lowest = 0
  · have unmade : c.frequencyBin c.minFrequency = none := follows.unmade unset _
    refine .inl ⟨if_pos unset,?_,?_⟩
    · rw [evictAndReturnKey,unmade]
    · rw [evictAndReturnValue,unmade]
  right
  cases found : u.cells.find? fun cell => cell.uses = u.lowest with
  | none =>
    obtain ⟨h,made⟩ := Option.ne_none_iff_exists'.mp (follows.made unset)
    have empty : LinkedHashSet.toList h = [] := by
      have bin : c.bin u.lowest = LinkedHashSet.toList h := by rw [LFUCache.bin,made]; rfl
      rw [←bin,follows.bins,List.map_eq_nil_iff,usedTimes,List.filter_eq_nil_iff]
      exact List.find?_eq_none.mp found
    have stops : c.popBin u.lowest h = none := by
      have front : (LinkedHashSet.popFront h).1 = none := by rw [pop_key,empty]; rfl
      rw [popBin,show LinkedHashSet.popFront h = (none,(LinkedHashSet.popFront h).2) from Prod.ext front rfl]
    refine .inl ⟨?_,?_,?_⟩
    · rw [Usage.evict,if_neg unset,found]
      rfl
    · rw [evictAndReturnKey,follows.lowest,made]
      simp only [stops,Option.bind_eq_bind,Option.bind_none]
    · rw [evictAndReturnValue,follows.lowest,made]
      simp only [stops,Option.bind_eq_bind,Option.bind_none]
  | some cell =>
    obtain ⟨least,before,after,same,first⟩ := List.find?_eq_some_iff_append.mp found
    have count : cell.uses = u.lowest := of_decide_eq_true least
    have bins := follows.toHoldsBins
    have member : cell ∈ u.cells := List.mem_of_find?_eq_some found
    rw [same] at bins
    have first : ∀ other ∈ before, other.uses ≠ cell.uses := by
      intro other held
      simpa [count] using first other held
    have listed : c.bin u.lowest = cell.key::(usedTimes u.lowest after).map Cell.key := by
      have none : usedTimes u.lowest before = [] :=
        List.filter_eq_nil_iff.mpr fun other held => by simpa [count] using first other held
      rw [bins.bins,usedTimes_split,if_pos count,none]
      rfl
    obtain ⟨left,evicted,key,value,bins,lowest,made⟩ := bins.popped (follows.lowest.trans count.symm) first
    have others := without_split follows.keys same
    have fewer := without_fewer member
    have room := follows.room
    refine .inr ⟨cell,left,?_,member,count,by rw [listed]; rfl,evicted,key,value,?_,lowest.trans follows.lowest,?_,by omega,
      fun full => by omega,?_,?_⟩
    · rw [Usage.evict,if_neg unset,found]
      rfl
    · rw [others]
      exact bins
    · exact fun other member => follows.least other (List.filter_sublist.subset member)
    · exact fun zero => absurd zero unset
    · exact fun set none => follows.made set ((made _).mp none)

-- A key that comes in, with an entry given up before if there is no room.
theorem Follows.entered (follows : Follows size c u) (absent : u.find key = none) (room : u.cells.length < size) (value : V) :
    ∃ next, c.set key value = some next ∧ Follows size next ⟨u.cells++[⟨key,value,1⟩],1⟩ := by
  obtain ⟨next,inserted,cells⟩ := follows.toHoldsBins.filled (Keyed.find_none_iff.mp absent) room value
  have once : (⟨key,value,1⟩ : Cell K V) ∈ u.cells++[⟨key,value,1⟩] := List.mem_append_right _ List.mem_cons_self
  have lowest : next.minFrequency = 1 := by
    obtain ⟨cell,member,same⟩ := cells.attained (List.ne_nil_of_mem once)
    exact Nat.le_antisymm (cells.least _ once) (same ▸ cells.used cell member)
  refine ⟨next,inserted,cells.toHoldsBins,lowest,cells.used,?_,fun _ => ⟨_,once,rfl⟩,?_,?_⟩
  · rw [List.length_append,List.length_singleton]
    exact room
  · exact fun zero => absurd zero (Nat.succ_ne_zero 0)
  · intro _ none
    have empty : next.bin 1 = [] := by
      unfold bin
      change next.frequencyBin 1 = Option.none at none
      rw [none]
      rfl
    rw [cells.bins,usedTimes_append,List.map_append] at empty
    simp [usedTimes] at empty

theorem Follows.stored (follows : Follows size c u) (absent : u.find key = none) (value : V) :
    ∃ next stored, c.set key value = some next ∧ u.set size key value = some stored ∧ Follows size next stored := by
  by_cases room : u.cells.length < size
  · obtain ⟨next,inserted,onward⟩ := follows.entered absent room value
    refine ⟨next,_,inserted,?_,onward⟩
    simp only [Usage.set,absent,if_neg (Nat.not_le.mpr room),Option.bind_eq_bind,Option.bind_some,Option.pure_def]
  · have filled : u.cells.length = size := Nat.le_antisymm follows.room (Nat.le_of_not_lt room)
    obtain ⟨lowest,member,least⟩ := follows.full filled
    rcases follows.evicted with ⟨unset,_⟩ | ⟨stops,_⟩ | ⟨cell,left,gone,held,_,_,evicted,_,_,onward⟩
    · refine absurd unset ?_
      have set : u.lowest ≠ 0 := by
        have once := follows.used lowest member
        omega
      rw [Usage.evict,if_neg set]
      cases u.cells.find? fun cell => cell.uses = u.lowest <;> simp
    · refine absurd stops ?_
      have found : (u.cells.find? fun cell => cell.uses = u.lowest).isSome :=
        List.find?_isSome.mpr ⟨lowest,member,decide_eq_true least⟩
      obtain ⟨first,found⟩ := Option.isSome_iff_exists.mp found
      rw [Usage.evict,found]
      split <;> simp
    · have fewer := without_fewer held
      rw [filled] at fewer
      have still : (u.without cell.key).find key = none := by
        refine Keyed.find_none_iff.mpr fun held => ?_
        exact Keyed.find_none_iff.mp absent ((List.filter_sublist.map Cell.key).subset held)
      obtain ⟨next,inserted,onward'⟩ := onward.entered still fewer value
      refine ⟨next,_,?_,?_,onward'⟩
      · have crowded : c.capacity ≤ c.len := by
          rw [follows.capacity,follows.len_eq,filled]
        have unfull : ¬ left.capacity ≤ left.len := by
          rw [onward.capacity,onward.len_eq]
          exact Nat.not_le.mpr fewer
        rw [LFUCache.set,onward.counter_eq,still] at inserted
        rw [LFUCache.set,follows.counter_eq,absent]
        simp only [Option.map_none,if_neg unfull,Option.bind_eq_bind,Option.bind_some] at inserted
        simp only [Option.map_none,if_pos crowded,evicted,Option.bind_eq_bind,Option.bind_some]
        exact inserted
      · simp only [Usage.set,absent,filled,Nat.le_refl,if_true,gone,Option.map_some,Option.bind_eq_bind,Option.bind_some,
          Option.pure_def]

-- A write to a held entry counts as a use.
theorem Follows.rewritten (follows : Follows size c u) (found : u.find key = some cell) (value : V) :
    ∃ next, c.set key value = some next ∧ Follows size next (u.raise cell value) := by
  obtain ⟨rfl,before,after,same,others⟩ := find_split follows.keys found
  have written := follows.revalued same value
  have keys := written.keys
  have member : {cell with value:=value} ∈ before++{cell with value:=value}::after :=
    List.mem_append_right _ List.mem_cons_self
  have again : Usage.find cell.key {u with cells:=before++{cell with value:=value}::after} = some {cell with value:=value} :=
    (Keyed.find_iff keys).mpr ⟨member,rfl⟩
  obtain ⟨next,updated,onward⟩ := written.raised again
  refine ⟨next,?_,?_⟩
  · rw [LFUCache.set,follows.counter_eq,found]
    exact updated
  · have rest := without_split keys rfl
    rw [Usage.raise,rest] at onward
    rw [Usage.raise,others]
    exact onward

theorem Follows.set (follows : Follows size c u) (key : K) (value : V) :
    ∃ next stored, c.set key value = some next ∧ u.set size key value = some stored ∧ Follows size next stored := by
  cases found : u.find key with
  | none => exact follows.stored found value
  | some cell =>
    obtain ⟨next,written,onward⟩ := follows.rewritten found value
    exact ⟨next,_,written,by rw [Usage.set,found],onward⟩

-- A key that is not held is looked up in vain.
omit [LawfulLinkedHashSet H] in
theorem Follows.missed (follows : Follows size c u) (absent : u.find key = none) :
    c.get key = some (none,c) ∧ ∀ change, c.getMut key change = some (none,c) := by
  have counter : c.counter key = none := by rw [follows.counter_eq,absent]; rfl
  have updated : c.updateFrequencyBin key = some c := by rw [updateFrequencyBin,counter]
  refine ⟨?_,fun change => ?_⟩
  · rw [LFUCache.get,updated]
    simp only [counter,Option.bind_eq_bind,Option.bind_some,Option.pure_def,Option.map_none]
  · rw [getMut,updated]
    simp only [counter,Option.bind_eq_bind,Option.bind_some,Option.pure_def]

theorem Follows.reused (follows : Follows size c u) (found : u.find key = some cell) :
    ∃ next, c.updateFrequencyBin key = some next ∧ next.counter key = some ⟨cell.value,cell.uses+1⟩ ∧
      Follows size next (u.raise cell cell.value) := by
  obtain ⟨same,_⟩ := find_split follows.keys found
  obtain ⟨next,updated,onward⟩ := follows.raised found
  have last : (⟨cell.key,cell.value,cell.uses+1⟩ : Cell K V) ∈ (u.raise cell cell.value).cells :=
    List.mem_append_right _ List.mem_cons_self
  refine ⟨next,updated,?_,onward⟩
  rw [←same]
  exact onward.counter_mem _ last

theorem Follows.fetched (follows : Follows size c u) (found : u.find key = some cell) :
    ∃ next, c.get key = some (some cell.value,next) ∧ Follows size next (u.raise cell cell.value) := by
  obtain ⟨next,updated,counter,onward⟩ := follows.reused found
  refine ⟨next,?_,onward⟩
  rw [LFUCache.get,updated]
  simp only [counter,Option.bind_eq_bind,Option.bind_some,Option.pure_def,Option.map_some]

theorem Follows.changed (follows : Follows size c u) (found : u.find key = some cell) (change : V → V) :
    ∃ next, c.getMut key change = some (some cell.value,next) ∧ Follows size next (u.raise cell (change cell.value)) := by
  obtain ⟨same,_⟩ := find_split follows.keys found
  obtain ⟨middle,updated,counter,onward⟩ := follows.reused found
  refine ⟨_,?_,onward.revalued rfl (change cell.value)⟩
  rw [getMut,updated]
  simp only [counter,Option.bind_eq_bind,Option.bind_some,Option.pure_def,same]

-- Looking a key up never panics.
theorem Follows.answers (follows : Follows size c u) (key : K) : c.get key ≠ none ∧ ∀ change, c.getMut key change ≠ none := by
  cases found : u.find key with
  | none =>
    obtain ⟨get,getMut⟩ := follows.missed found
    refine ⟨fun stopped => ?_,fun change stopped => ?_⟩
    · cases get.symm.trans stopped
    · cases (getMut change).symm.trans stopped
  | some cell =>
    obtain ⟨_,get,_⟩ := follows.fetched found
    refine ⟨fun stopped => ?_,fun change stopped => ?_⟩
    · cases get.symm.trans stopped
    · obtain ⟨_,getMut,_⟩ := follows.changed found change
      cases getMut.symm.trans stopped

-- The cache and the policy answer a call alike, or the call panics.
theorem Follows.call (follows : Follows size c u) (request : LfuRequest K V) :
    (c.call request = none ∧ u.call size request = none) ∨ ∃ reply c' u',
      c.call request = some (reply,c') ∧ u.call size request = some (reply,u') ∧ Follows size c' u' := by
  have counter := follows.counter_eq
  cases request with
  | contains key =>
    refine .inr ⟨_,_,_,rfl,?_,follows⟩
    rw [Usage.call,contains,counter,Option.isSome_map]
  | len =>
    refine .inr ⟨_,_,_,rfl,?_,follows⟩
    rw [Usage.call,follows.len_eq]
  | isEmpty =>
    refine .inr ⟨_,_,_,rfl,?_,follows⟩
    have length : c.values.length = u.cells.length := follows.len_eq
    have same : c.isEmpty = u.cells.isEmpty := by
      rw [Bool.eq_iff_iff,isEmpty,List.isEmpty_iff_length_eq_zero,List.isEmpty_iff_length_eq_zero,length]
    rw [Usage.call,same]
  | index key =>
    rw [LFUCache.call,Usage.call,index,counter]
    cases u.find key with
    | none => exact .inl ⟨rfl,rfl⟩
    | some cell => exact .inr ⟨_,_,_,rfl,rfl,follows⟩
  | get key =>
    right
    rw [LFUCache.call,Usage.call]
    cases found : u.find key with
    | none =>
      rw [(follows.missed found).1]
      exact ⟨_,_,_,rfl,rfl,follows⟩
    | some cell =>
      obtain ⟨next,fetched,onward⟩ := follows.fetched found
      rw [fetched]
      exact ⟨_,_,_,rfl,rfl,onward⟩
  | getMut key change =>
    right
    rw [LFUCache.call,Usage.call]
    cases found : u.find key with
    | none =>
      rw [(follows.missed found).2]
      exact ⟨_,_,_,rfl,rfl,follows⟩
    | some cell =>
      obtain ⟨next,changed,onward⟩ := follows.changed found change
      rw [changed]
      exact ⟨_,_,_,rfl,rfl,onward⟩
  | set key value =>
    right
    obtain ⟨next,stored,inserted,policy,onward⟩ := follows.set key value
    rw [LFUCache.call,Usage.call,inserted,policy]
    exact ⟨_,_,_,rfl,rfl,onward⟩
  | remove key =>
    right
    rw [LFUCache.call,Usage.call,remove,counter]
    cases found : u.find key with
    | none =>
      refine ⟨_,_,_,rfl,?_,follows⟩
      have kept : u.without key = u := by
        rw [Usage.without,Keyed.filter_absent (Keyed.find_none_iff.mp found)]
      rw [kept]
      rfl
    | some cell =>
      refine ⟨_,_,_,rfl,rfl,follows.removed found ?_⟩
      rw [remove_list,bin]
      cases c.frequencyBin cell.uses with
      | none => exact congrArg (List.filter _) empty_list
      | some h => rfl
  | evictAndReturnKey =>
    rw [LFUCache.call,Usage.call]
    rcases follows.evicted with ⟨policy,key,_⟩ | ⟨policy,key,_⟩ | ⟨cell,left,policy,_,_,_,_,key,_,onward⟩ <;> rw [policy,key]
    · exact .inr ⟨_,_,_,rfl,rfl,follows⟩
    · exact .inl ⟨rfl,rfl⟩
    · exact .inr ⟨_,_,_,rfl,rfl,onward⟩
  | evictAndReturnValue =>
    rw [LFUCache.call,Usage.call]
    rcases follows.evicted with ⟨policy,_,value⟩ | ⟨policy,_,value⟩ | ⟨cell,left,policy,_,_,_,_,_,value,onward⟩ <;>
      rw [policy,value]
    · exact .inr ⟨_,_,_,rfl,rfl,follows⟩
    · exact .inl ⟨rfl,rfl⟩
    · exact .inr ⟨_,_,_,rfl,rfl,onward⟩

omit [DecidableEq K] [LawfulLinkedHashSet H] in
theorem follows_new (sized : 1 ≤ size) : ∃ c : LFUCache H K V, withCapacity size = some c ∧ Follows size c {} := by
  refine ⟨⟨[],.empty,size,0⟩,if_neg (Nat.ne_of_gt sized),(holds_empty size).toHoldsBins,rfl,List.forall_mem_nil _,
    Nat.zero_le _,fun empty => ?_,fun _ _ => rfl,fun set => absurd rfl set⟩
  have zero : size = 0 := empty.symm
  omega

-- Every sequence of calls is answered as the policy says, up to the first that panics.
theorem lfu_follows_policy (size : Nat) (sized : 1 ≤ size) (requests : List (LfuRequest K V)) :
    ∃ fresh : LFUCache H K V, withCapacity size = some fresh ∧
      (Transducer.feed (fun request c => LFUCache.call c request) requests fresh).map Prod.fst =
        (Transducer.feed (fun request u => Usage.call size u request) requests {}).map Prod.fst := by
  obtain ⟨fresh,made,follows⟩ := follows_new (H:=H) (K:=K) (V:=V) sized
  exact ⟨fresh,made,Transducer.feed_alike (Follows size) (fun request _ _ follows => follows.call request) requests follows⟩

-- The least count is set when the first entry comes in, and never unset.
omit [LawfulLinkedHashSet H] in
theorem Follows.found_lowest (follows : Follows size c u) (found : u.find key = some cell) : u.lowest ≠ 0 := by
  intro zero
  rw [Usage.find,follows.empty zero] at found
  cases found

omit [LawfulLinkedHashSet H] in
theorem Follows.raise_lowest (follows : Follows size c u) (found : u.find key = some cell) : (u.raise cell value).lowest ≠ 0 := by
  have set := follows.found_lowest found
  rw [Usage.raise]
  dsimp only
  split
  · exact Nat.succ_ne_zero _
  · exact set

theorem evict_lowest (evicted : u.evict = some (gone,left)) : left.lowest = u.lowest := by
  rw [Usage.evict] at evicted
  split at evicted
  · cases evicted
    rfl
  · obtain ⟨_,_,same⟩ := Option.map_eq_some_iff.mp evicted
    cases same
    rfl

omit [LawfulLinkedHashSet H] in
theorem Follows.set_lowest (follows : Follows size c u) (stored : u.set size key value = some u') : u'.lowest ≠ 0 := by
  rw [Usage.set] at stored
  cases found : u.find key with
  | none =>
    simp only [found] at stored
    split at stored
    · obtain ⟨left,_,same⟩ := Option.bind_eq_some_iff.mp stored
      cases same
      exact Nat.succ_ne_zero 0
    · cases stored
      exact Nat.succ_ne_zero 0
  | some cell =>
    simp only [found] at stored
    cases stored
    exact follows.raise_lowest found

omit [LawfulLinkedHashSet H] in
theorem Follows.call_lowest (follows : Follows size c u) (answered : u.call size request = some (reply,u')) :
    u'.lowest = 0 ↔ u.lowest = 0 ∧ ∀ key value, request ≠ .set key value := by
  cases request with
  | set key value =>
    obtain ⟨stored,inserted,same⟩ := Option.map_eq_some_iff.mp answered
    cases same
    exact ⟨fun zero => absurd zero (follows.set_lowest inserted),fun unset => absurd rfl (unset.2 key value)⟩
  | get key =>
    cases found : u.find key with
    | none =>
      simp only [Usage.call,found] at answered
      cases answered
      simp
    | some cell =>
      simp only [Usage.call,found] at answered
      cases answered
      simp [follows.raise_lowest found,follows.found_lowest found]
  | getMut key change =>
    cases found : u.find key with
    | none =>
      simp only [Usage.call,found] at answered
      cases answered
      simp
    | some cell =>
      simp only [Usage.call,found] at answered
      cases answered
      simp [follows.raise_lowest found,follows.found_lowest found]
  | evictAndReturnKey | evictAndReturnValue =>
    obtain ⟨⟨gone,left⟩,evicted,same⟩ := Option.map_eq_some_iff.mp answered
    cases same
    rw [evict_lowest evicted]
    simp
  | index key =>
    obtain ⟨cell,_,same⟩ := Option.map_eq_some_iff.mp answered
    cases same
    simp
  | contains | len | isEmpty =>
    cases answered
    simp
  | remove key =>
    cases answered
    simp [Usage.without]

theorem follows_reached (follows : Follows size c u) (requests : List (LfuRequest K V))
    (ran : Transducer.feed (fun request c => LFUCache.call c request) requests c = some (replies,final)) :
    ∃ u', Follows size final u' ∧ (u'.lowest = 0 ↔ u.lowest = 0 ∧ ∀ key value, .set key value ∉ requests) := by
  induction requests generalizing c u replies with
  | nil =>
    cases ran
    exact ⟨u,follows,by simp⟩
  | cons request rest ih =>
    obtain ⟨_,_,_,moved,later,_⟩ := Transducer.feed_cons.mp ran
    rcases follows.call request with ⟨stopped,_⟩ | ⟨_,_,_,moved',answered,onward⟩
    · cases stopped.symm.trans moved
    · cases moved'.symm.trans moved
      obtain ⟨u',reached,unset⟩ := ih onward later
      refine ⟨u',reached,unset.trans ?_⟩
      rw [follows.call_lowest answered,and_assoc]
      refine and_congr_right' ?_
      simp only [List.mem_cons,not_or,forall_and,ne_eq,eq_comm]

-- The entry that goes is one of those used least, and the others stay.
omit [LawfulLinkedHashSet H] in
theorem Follows.gone {left : LFUCache H K V} (follows : Follows size c u) (member : cell ∈ u.cells) (least : cell.uses = u.lowest)
    (onward : Follows size left (u.without cell.key)) : c.counter cell.key = some ⟨cell.value,u.lowest⟩ ∧
      (∀ other counter, c.counter other = some counter → u.lowest ≤ counter.count) ∧
      left.counter cell.key = none ∧ ∀ other, other ≠ cell.key → left.counter other = c.counter other := by
  refine ⟨?_,?_,?_,?_⟩
  · rw [follows.counter_mem cell member,least]
  · intro other counter held
    rw [follows.counter_eq] at held
    obtain ⟨holder,found,rfl⟩ := Option.map_eq_some_iff.mp held
    exact follows.least holder (List.mem_of_find?_eq_some found)
  · rw [onward.counter_eq,find_without]
    rfl
  · intro other apart
    rw [onward.counter_eq,follows.counter_eq,find_without_ne apart]

-- The policy stops where the least count is one that no entry has.
omit [LawfulLinkedHashSet H] in
theorem Follows.stops (follows : Follows size c u) (stopped : u.evict = none) :
    u.lowest ≠ 0 ∧ c.bin u.lowest = [] ∧ u.cells.length ≠ size := by
  have set : u.lowest ≠ 0 := by
    intro zero
    rw [Usage.evict,if_pos zero] at stopped
    cases stopped
  have unused : ∀ cell ∈ u.cells, ¬ decide (cell.uses = u.lowest) := by
    rw [Usage.evict,if_neg set,Option.map_eq_none_iff] at stopped
    exact List.find?_eq_none.mp stopped
  refine ⟨set,?_,?_⟩
  · rw [follows.bins,List.map_eq_nil_iff,usedTimes,List.filter_eq_nil_iff]
    exact unused
  · intro full
    obtain ⟨cell,member,least⟩ := follows.full full
    exact unused cell member (decide_eq_true least)

-- In every state that calls lead to: no more entries than the capacity, no panic in
-- reading or writing, and one in either eviction exactly when there is a least count
-- and its bin is empty, which it never is while the cache is full. Otherwise it is the
-- first of the keys used least that goes, and none goes exactly while nothing was set.
theorem lfu_evicts_least (size : Nat) (sized : 1 ≤ size) (requests : List (LfuRequest K V)) (fresh : LFUCache H K V)
    (made : withCapacity size = some fresh)
    (ran : Transducer.feed (fun request c => LFUCache.call c request) requests fresh = some (replies,c)) :
    c.len ≤ size ∧
    (∀ key value, c.set key value ≠ none) ∧ (∀ key, c.get key ≠ none) ∧ (∀ key change, c.getMut key change ≠ none) ∧
    (c.minFrequency = 0 ↔ ∀ key value, LfuRequest.set key value ∉ requests) ∧
    (c.evictAndReturnKey = none ↔ c.minFrequency ≠ 0 ∧ c.bin c.minFrequency = []) ∧
    (c.evictAndReturnValue = none ↔ c.minFrequency ≠ 0 ∧ c.bin c.minFrequency = []) ∧
    (c.len = size → c.evictAndReturnKey ≠ none ∧ c.evictAndReturnValue ≠ none) ∧
    (∀ key left, c.evictAndReturnKey = some (some key,left) → ∃ value, c.evictAndReturnValue = some (some value,left) ∧
      (c.bin c.minFrequency).head? = some key ∧ c.counter key = some ⟨value,c.minFrequency⟩ ∧
      (∀ other counter, c.counter other = some counter → c.minFrequency ≤ counter.count) ∧
      left.counter key = none ∧ ∀ other, other ≠ key → left.counter other = c.counter other) ∧
    ((∃ left, c.evictAndReturnKey = some (none,left)) ↔ c.minFrequency = 0) ∧
    ((∃ left, c.evictAndReturnValue = some (none,left)) ↔ c.minFrequency = 0) ∧
    (c.minFrequency = 0 → c.len = 0 ∧ c.evictAndReturnKey = some (none,c) ∧ c.evictAndReturnValue = some (none,c)) := by
  obtain ⟨fresh',made',start⟩ := follows_new (H:=H) (K:=K) (V:=V) sized
  cases made'.symm.trans made
  obtain ⟨u,follows,unset⟩ := follows_reached start requests ran
  refine ⟨follows.len_eq.trans_le follows.room,?_,fun key => (follows.answers key).1,fun key => (follows.answers key).2,?_⟩
  · intro key value stopped
    obtain ⟨_,_,inserted,_⟩ := follows.set key value
    cases stopped.symm.trans inserted
  rw [follows.lowest,follows.len_eq]
  refine ⟨unset.trans (and_iff_right rfl),?_⟩
  rcases follows.evicted with ⟨nothing,key,value⟩ | ⟨stopped,key,value⟩ | ⟨cell,left,_,member,least,listed,_,key,value,onward⟩ <;>
    rw [key,value]
  · have zero : u.lowest = 0 := by
      by_contra set
      rw [Usage.evict,if_neg set] at nothing
      obtain ⟨_,_,same⟩ := Option.map_eq_some_iff.mp nothing
      cases same
    simp [zero,follows.empty zero]
  · obtain ⟨set,empty,unfull⟩ := follows.stops stopped
    simp [set,empty,unfull]
  · have set : u.lowest ≠ 0 := least ▸ Nat.ne_of_gt (follows.used cell member)
    have filled : c.bin u.lowest ≠ [] := by
      rw [listed]
      exact List.cons_ne_nil _ _
    obtain ⟨own,below,gone,others⟩ := follows.gone member least onward
    have first : (c.bin u.lowest).head? = some cell.key := by
      rw [listed]
      rfl
    refine ⟨?_,?_,?_,?_,?_⟩
    · simp [filled]
    · simp [filled]
    · simp
    · intro key' left' same
      cases same
      exact ⟨cell.value,rfl,first,own,below,gone,others⟩
    · simp [set]

theorem lfu_evicts_least_two : ∃ (fresh c : LFUCache ListSet Nat Nat) (replies : _), withCapacity 2 = some fresh ∧
    Transducer.feed (fun request c => LFUCache.call c request) [.set 10 1,.set 20 2,.get 10] fresh = some (replies,c) ∧
    c.len ≤ 2 := by
  obtain ⟨fresh,made⟩ : ∃ fresh : LFUCache ListSet Nat Nat, withCapacity 2 = some fresh := ⟨_,rfl⟩
  obtain ⟨replies,c,ran⟩ : ∃ (replies : _) (c : LFUCache ListSet Nat Nat),
      Transducer.feed (fun request c => LFUCache.call c request) [.set 10 1,.set 20 2,.get 10] fresh = some (replies,c) := by
    cases made
    exact ⟨_,_,rfl⟩
  exact ⟨fresh,c,replies,made,ran,(lfu_evicts_least 2 (by decide) _ fresh made ran).1⟩

theorem lfu_follows_policy_two : ∃ fresh : LFUCache ListSet Nat Nat, withCapacity 2 = some fresh ∧
    (Transducer.feed (fun request c => LFUCache.call c request) [.set 10 1,.set 20 2,.evictAndReturnKey] fresh).map Prod.fst =
      some [.done,.done,.key (some 10)] := by
  obtain ⟨fresh,made,same⟩ := lfu_follows_policy (H:=ListSet) (K:=Nat) (V:=Nat) 2 (by decide)
    [.set 10 1,.set 20 2,.evictAndReturnKey]
  exact ⟨fresh,made,same⟩

-- The second of two evictions finds the bin of the keys used once empty, and panics.
example : ((withCapacity 2 : Option (LFUCache ListSet Nat Nat)).bind fun c => Transducer.feed (fun request c => LFUCache.call c request)
    [.set 10 1,.set 20 2,.get 10,.evictAndReturnKey,.evictAndReturnKey] c).isNone = true := by decide

end LFUCache
end OmniPaxosKV

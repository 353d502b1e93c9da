import Mathlib.Logic.Function.Basic

-- A hash map read as what it answers to each key; equal maps answer alike.
namespace OmniPaxosKV

abbrev KeyMap (Key Value : Type) := Key → Option Value

namespace KeyMap
def empty : KeyMap Key Value := fun _ => none

@[simp] theorem empty_apply (key : Key) : (empty : KeyMap Key Value) key = none := rfl

variable {Key Value : Type} [DecidableEq Key]

def insert (map : KeyMap Key Value) (key : Key) (value : Value) : KeyMap Key Value :=
  Function.update map key (some value)

def remove (map : KeyMap Key Value) (key : Key) : KeyMap Key Value :=
  Function.update map key none

@[simp] theorem insert_self (map : KeyMap Key Value) : map.insert key value key = some value :=
  Function.update_self ..

@[simp] theorem remove_self (map : KeyMap Key Value) : map.remove key key = none :=
  Function.update_self ..

theorem insert_apply (map : KeyMap Key Value) :
    map.insert key value other = if other = key then some value else map other :=
  Function.update_apply ..

theorem remove_apply (map : KeyMap Key Value) :
    map.remove key other = if other = key then none else map other :=
  Function.update_apply ..

theorem insert_of_ne (map : KeyMap Key Value) (distinct : other ≠ key) :
    map.insert key value other = map other := Function.update_of_ne distinct ..

theorem remove_of_ne (map : KeyMap Key Value) (distinct : other ≠ key) :
    map.remove key other = map other := Function.update_of_ne distinct ..

end KeyMap
end OmniPaxosKV

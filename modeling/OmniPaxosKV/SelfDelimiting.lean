import Mathlib.Data.List.Basic
import Mathlib.Logic.Function.Basic

-- Encodings whose end can be seen without knowing what follows, so that a
-- stream of them splits in one way only.
namespace OmniPaxosKV

variable {Value Symbol First Second : Type*}

def SelfDelimiting (write : Value → List Symbol) : Prop :=
  ∀ x y restX restY, write x ++ restX = write y ++ restY → x = y ∧ restX = restY

namespace SelfDelimiting

theorem injective {write : Value → List Symbol} (delimits : SelfDelimiting write) : Function.Injective write := by
  intro x y equal
  exact (delimits x y [] [] (by rw [equal])).1

theorem of_length {write : Value → List Symbol} (injective : Function.Injective write)
    (width : Nat) (fixed : ∀ x, (write x).length = width) : SelfDelimiting write := by
  intro x y restX restY equal
  obtain ⟨same,rest⟩ := List.append_inj equal (by rw [fixed,fixed])
  exact ⟨injective same,rest⟩

-- A terminator that no encoded value contains.
theorem of_terminated {write : Value → List Symbol} {stop : Symbol} (injective : Function.Injective write)
    (absent : ∀ x, stop ∉ write x) : SelfDelimiting (fun x => write x++[stop]) := by
  have unique : ∀ (left right restLeft restRight : List Symbol), stop ∉ left → stop ∉ right →
      left++stop::restLeft = right++stop::restRight → left = right ∧ restLeft = restRight := by
    intro left
    induction left with
    | nil =>
      intro right restLeft restRight _ notRight equal
      cases right with
      | nil => exact ⟨rfl,by simpa using equal⟩
      | cons symbol right =>
        simp only [List.nil_append,List.cons_append,List.cons.injEq] at equal
        exact absurd (equal.1 ▸ List.mem_cons_self) notRight
    | cons symbol left ih =>
      intro right restLeft restRight notLeft notRight equal
      cases right with
      | nil =>
        simp only [List.nil_append,List.cons_append,List.cons.injEq] at equal
        exact absurd (equal.1 ▸ List.mem_cons_self) notLeft
      | cons other right =>
        simp only [List.cons_append,List.cons.injEq] at equal
        obtain ⟨rfl,tail⟩ := equal
        obtain ⟨rfl,rest⟩ := ih right restLeft restRight
          (fun member => notLeft (List.mem_cons_of_mem _ member))
          (fun member => notRight (List.mem_cons_of_mem _ member)) tail
        exact ⟨rfl,rest⟩
  intro x y restX restY equal
  simp only [List.append_assoc,List.singleton_append] at equal
  obtain ⟨same,rest⟩ := unique _ _ _ _ (absent x) (absent y) equal
  exact ⟨injective same,rest⟩

theorem append {first : First → List Symbol} {second : Second → List Symbol}
    (one : SelfDelimiting first) (two : SelfDelimiting second) :
    SelfDelimiting (fun pair : First × Second => first pair.1++second pair.2) := by
  intro left right restX restY equal
  obtain ⟨x,x'⟩ := left
  obtain ⟨y,y'⟩ := right
  simp only [List.append_assoc] at equal
  obtain ⟨rfl,later⟩ := one _ _ _ _ equal
  obtain ⟨rfl,rest⟩ := two _ _ _ _ later
  exact ⟨rfl,rest⟩

theorem flatMap_injective {write : Value → List Symbol} (delimits : SelfDelimiting write)
    (nonempty : ∀ x, write x ≠ []) : Function.Injective (fun values : List Value => values.flatMap write) := by
  intro left
  induction left with
  | nil =>
    intro right equal
    cases right with
    | nil => rfl
    | cons y right =>
      simp only [List.flatMap_nil,List.flatMap_cons] at equal
      exact absurd (List.append_eq_nil_iff.mp equal.symm).1 (nonempty y)
  | cons x left ih =>
    intro right equal
    cases right with
    | nil =>
      simp only [List.flatMap_nil,List.flatMap_cons] at equal
      exact absurd (List.append_eq_nil_iff.mp equal).1 (nonempty x)
    | cons y right =>
      simp only [List.flatMap_cons] at equal
      obtain ⟨rfl,rest⟩ := delimits _ _ _ _ equal
      rw [ih rest]

end SelfDelimiting
end OmniPaxosKV

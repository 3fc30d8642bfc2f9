import Mathlib.Logic.Function.Basic

/-!
# Families With One Value Changed

A state keeps one value for each thread, frame or node, and a step changes one of
them. What is claimed of all of them is then left to show for the new value, if it
is a fact about each value, or for the new value and the others, if it says who is
the one with some property.

## Theorems

* `forall_update_of_ne`, `forall_update`: A fact about every value.
* `holder_update`: Which values have a property.
* `count_push`, `count_pop`: Queues with one entry in all.
-/

namespace Cmpth

section Update

variable {ι : Type*} [DecidableEq ι] {i : ι}

/-- What holds of the other values and of the new one holds of all. -/
theorem forall_update_of_ne {V : ι → Type*} {f : ∀ j, V j} {v : V i} {P : ∀ j, V j → Prop}
    (h : ∀ j, j ≠ i → P j (f j)) (hi : P i v) : ∀ j, P j (Function.update f i v j) := by
  intro j
  by_cases hj : j = i
  · subst hj
    rw [Function.update_self]
    exact hi
  · rw [Function.update_of_ne hj]
    exact h j hj

/-- What holds of every value holds once the new one has it, too. -/
theorem forall_update {V : ι → Type*} {f : ∀ j, V j} {v : V i} {P : ∀ j, V j → Prop}
    (h : ∀ j, P j (f j)) (hi : P i v) : ∀ j, P j (Function.update f i v j) :=
  forall_update_of_ne (fun j _ => h j) hi

/-- One value changes, and with it who has the property. -/
theorem holder_update {V : Type*} {f : ι → V} {v : V} {P : V → Prop} {A B : ι → Prop}
    (h : ∀ j, P (f j) ↔ A j) (hi : P v ↔ B i) (hne : ∀ j, j ≠ i → (A j ↔ B j)) :
    ∀ j, P (Function.update f i v j) ↔ B j := by
  intro j
  by_cases hj : j = i
  · rw [hj, Function.update_self]
    exact hi
  · rw [Function.update_of_ne hj]
    exact (h j).trans (hne j hj)

/-- An entry is pushed where there was none. -/
theorem count_push {n : ι → Nat} {A B : ι → Prop} (h : ∀ j, (A j → n j = 1) ∧ (¬ A j → n j = 0))
    (hA : ∀ j, ¬ A j) (hB : ∀ j, B j ↔ i = j) (j : ι) :
    (B j → Function.update n i (n i + 1) j = 1) ∧
      (¬ B j → Function.update n i (n i + 1) j = 0) := by
  by_cases hj : j = i
  · rw [hj, Function.update_self, (h i).2 (hA i)]
    exact ⟨fun _ => rfl, fun hn => absurd ((hB i).mpr rfl) hn⟩
  · rw [Function.update_of_ne hj]
    exact ⟨fun hb => absurd ((hB j).mp hb).symm hj, fun _ => (h j).2 (hA j)⟩

/-- The only entry is popped. -/
theorem count_pop {n : ι → Nat} {A B : ι → Prop} (h : ∀ j, (A j → n j = 1) ∧ (¬ A j → n j = 0))
    (hA : ∀ j, A j ↔ i = j) (hB : ∀ j, ¬ B j) (j : ι) :
    (B j → Function.update n i (n i - 1) j = 1) ∧
      (¬ B j → Function.update n i (n i - 1) j = 0) := by
  refine ⟨fun hb => absurd hb (hB j), fun _ => ?_⟩
  by_cases hj : j = i
  · rw [hj, Function.update_self, (h i).1 ((hA i).mpr rfl)]
  · rw [Function.update_of_ne hj]
    exact (h j).2 fun ha => hj ((hA j).mp ha).symm

end Update

end Cmpth

import Mathlib.Algebra.BigOperators.Group.Finset.Basic
import Mathlib.Algebra.Order.BigOperators.Group.Finset
import Mathlib.Data.Fintype.BigOperators

/-!
# Counting over Parties

Sums over the finitely many parties of a protocol. A step of a protocol moves
one party, so what matters is how a sum changes when a function is updated in
one place.

## Theorems

* `sum_update`: What the sum loses and gains when one party moves.
* `sum_le_sum_except`: One party counts for less, the others for no less.
-/

namespace Cmpth

variable {ι β : Type*} [Fintype ι] [DecidableEq ι]

/-- When party `i` moves to `b`, the sum loses what it counted and gains what
    `b` counts. -/
theorem sum_update {M : Type*} [AddCommMonoid M] (f : ι → β) (m : β → M) (i : ι) (b : β) :
    ∑ x, m (Function.update f i b x) + m (f i) = ∑ x, m (f x) + m b := by
  have hmem := Finset.mem_univ i
  have hrest : ∑ x ∈ Finset.univ.erase i, m (Function.update f i b x) =
      ∑ x ∈ Finset.univ.erase i, m (f x) := by
    refine Finset.sum_congr rfl fun x hx => ?_
    rw [Function.update_of_ne (Finset.ne_of_mem_erase hx)]
  rw [← Finset.add_sum_erase _ _ hmem, ← Finset.add_sum_erase _ (fun x => m (f x)) hmem,
    hrest, Function.update_self]
  ac_rfl

omit [DecidableEq ι] in
/-- If all but party `i` count for no less, and `i` for at most `d` less, the
    sum is at most `d` less. -/
theorem sum_le_sum_except {f g : ι → ℕ} (i : ι) {d : ℕ} (h : ∀ x, x ≠ i → f x ≤ g x)
    (hi : f i ≤ g i + d) : ∑ x, f x ≤ ∑ x, g x + d := by
  classical
  have hmem := Finset.mem_univ i
  have hrest : ∑ x ∈ Finset.univ.erase i, f x ≤ ∑ x ∈ Finset.univ.erase i, g x :=
    Finset.sum_le_sum fun x hx => h x (Finset.ne_of_mem_erase hx)
  rw [← Finset.add_sum_erase _ f hmem, ← Finset.add_sum_erase _ g hmem]
  omega

end Cmpth

import Mathlib.Tactic.Common

/-!
# Try-Locks

A lock that is a flag, taken by whoever changes it from clear to set and given
back by clearing it, has one holder while it is set and none while it is clear.

What a party holds the lock for is its own business, so holding is a predicate
of the parties. A party that takes a step takes the lock when the flag is
clear, keeps what it has, or gives the lock back.

## Main definitions

* `TryLock`: The flag is set for the holder, and there is one.

## Theorems

* `TryLock.update`: A step of one party keeps it.
* `TryLock.pass`: The holder hands the lock to another party.
* `tryLock_free`: A lock nobody holds.
-/

namespace Cmpth

variable {T : Type*}

/-- The flag is set exactly while a party holds the lock, and one party does. -/
structure TryLock (busy : Bool) (holds : T → Prop) : Prop where
  taken : ∀ t, holds t → busy = true
  held : busy = true → ∃ t, holds t
  one : ∀ t t', holds t → holds t' → t = t'

/-- A lock nobody holds. -/
theorem tryLock_free {holds : T → Prop} (h : ∀ t, ¬ holds t) : TryLock false holds :=
  ⟨fun t ht => absurd ht (h t), nofun, fun t _ ht => absurd ht (h t)⟩

/-- A party takes the free lock, keeps what it has, or gives the lock back. -/
theorem TryLock.update {busy busy' : Bool} {holds holds' : T → Prop} (h : TryLock busy holds)
    (t : T) (hother : ∀ t', t' ≠ t → (holds' t' ↔ holds t'))
    (hstep : busy' = busy ∧ (holds' t ↔ holds t) ∨ busy = false ∧ busy' = true ∧ holds' t ∨
      holds t ∧ ¬ holds' t ∧ busy' = false) : TryLock busy' holds' := by
  rcases hstep with ⟨rfl, hkeep⟩ | ⟨rfl, rfl, htaken⟩ | ⟨hheld, hgone, rfl⟩
  · -- Whoever has the lock has had it.
    have hsame : holds' = holds := by
      funext t'
      by_cases hne : t' = t
      · rw [hne]
        exact propext hkeep
      · exact propext (hother t' hne)
    rwa [hsame]
  · -- The flag was clear, so nobody had it.
    have honly : ∀ t', holds' t' → t' = t := by
      intro t' ht'
      by_contra hne
      exact nomatch h.taken t' ((hother t' hne).mp ht')
    exact ⟨fun _ _ => rfl, fun _ => ⟨t, htaken⟩,
      fun t₁ t₂ h₁ h₂ => (honly t₁ h₁).trans (honly t₂ h₂).symm⟩
  · -- The only holder gives it back.
    refine tryLock_free fun t' ht' => ?_
    by_cases hne : t' = t
    · rw [hne] at ht'
      exact hgone ht'
    · exact hne (h.one t' t ((hother t' hne).mp ht') hheld)

/-- The holder hands the lock to another party. -/
theorem TryLock.pass {busy : Bool} {holds holds' : T → Prop} (h : TryLock busy holds) (t t' : T)
    (ht : holds t) (hgone : ¬ holds' t) (htaken : holds' t')
    (hother : ∀ r, r ≠ t → r ≠ t' → (holds' r ↔ holds r)) : TryLock busy holds' := by
  have honly : ∀ r, holds' r → r = t' := by
    intro r hr
    by_contra hne
    by_cases hrt : r = t
    · rw [hrt] at hr
      exact hgone hr
    · exact hrt (h.one r t ((hother r hrt hne).mp hr) ht)
  exact ⟨fun _ _ => h.taken t ht, fun _ => ⟨t', htaken⟩,
    fun r₁ r₂ h₁ h₂ => (honly r₁ h₁).trans (honly r₂ h₂).symm⟩

end Cmpth

import Mathlib.Data.List.Range
import Mathlib.Order.Interval.Finset.Nat

/-!
# A Counter That Wraps

Consecutive values of a counter of limited width, and their residues. A counter that
does not wrap on the way goes through `n` residues modulo `n`, each once. Where it wraps,
the residues are consecutive on both sides, and on the far side they begin with zero. So
they are still all different where the width is a multiple of `n`, and nowhere else: one
of them comes twice.

## Main definitions

* `residue`: The residue of a value of the counter.

## Theorems

* `residue_perm`: All residues, each once.
* `residue_collides`: A residue that comes twice.
* `residue_perm_iff`: When all residues come once.
* `residue_eq`, `range_mod_perm`, `perm_of_filter_ne`: Residues that do not wrap, and lists that
  agree but for one value.
-/

namespace Cmpth

namespace Wrap

/-- The residue of the `i`-th value from `start` on, of a counter modulo `W`. -/
def residue (W start n i : Nat) : Nat :=
  (start + i) % W % n

variable {W start n : Nat}

-- As if the counter did not wrap.
theorem residue_eq {i : Nat} (hi : i < n) (h : start + n ≤ W ∨ n ∣ W) :
    residue W start n i = (start + i) % n := by
  unfold residue
  rcases h with hle | hdvd
  · rw [Nat.mod_eq_of_lt (by omega : start + i < W)]
  · exact Nat.mod_mod_of_dvd _ hdvd

theorem range_mod_perm (start n : Nat) :
    ((List.range n).map fun i => (start + i) % n).Perm (List.range n) := by
  have hmod := Nat.multiset_Ico_map_mod start n
  have hico : Multiset.Ico start (start + n) = (List.range' start n : Multiset Nat) := by
    change (List.range' start (start + n - start) : Multiset Nat) = _
    rw [Nat.add_sub_cancel_left]
  rw [hico] at hmod
  have hperm : ((List.range' start n).map (· % n)).Perm (List.range n) :=
    Multiset.coe_eq_coe.mp hmod
  rw [List.range'_eq_map_range, List.map_map] at hperm
  exact hperm

/-- All residues, each once. -/
theorem residue_perm (h : start + n ≤ W ∨ n ∣ W) :
    ((List.range n).map (residue W start n)).Perm (List.range n) := by
  have heq : (List.range n).map (residue W start n) =
      (List.range n).map fun i => (start + i) % n := by
    refine List.map_congr_left fun i hi => ?_
    exact residue_eq (List.mem_range.mp hi) h
  rw [heq]
  exact range_mod_perm start n

/-- A residue that comes twice. Before the counter wraps the last residue is that of
    `W - 1`, which is not `n - 1`. From there it goes down, and from zero up. -/
theorem residue_collides (hn : 0 < n) (hstart : start < W) (hwrap : W < start + n)
    (hdvd : ¬ n ∣ W) :
    ∃ i j, i < j ∧ j < n ∧ residue W start n i = residue W start n j := by
  have hlast : (W - 1) % n < n := Nat.mod_lt _ hn
  have hdiv : n * ((W - 1) / n) + (W - 1) % n = W - 1 := Nat.div_add_mod (W - 1) n
  generalize (W - 1) / n = q at hdiv
  generalize (W - 1) % n = r at hdiv hlast
  have hr : r + 1 < n := by
    refine Nat.lt_of_le_of_ne hlast fun hr => hdvd ⟨q + 1, ?_⟩
    rw [Nat.mul_add, Nat.mul_one]
    omega
  -- The residue is the last one before the wrap, or else the last one at all.
  rcases Nat.le_total r (n - 1 - (W - start)) with hle | hle
  · refine ⟨W - start - 1, W - start + r, by omega, by omega, ?_⟩
    have hi : start + (W - start - 1) = n * q + r := by omega
    have hj : start + (W - start + r) = W + r := by omega
    unfold residue
    rw [hi, hj, Nat.add_mod_left, Nat.mod_eq_of_lt (by omega : n * q + r < W),
      Nat.mod_eq_of_lt (by omega : r < W), Nat.mul_add_mod]
  · refine ⟨W - start - 1 - (r - (n - 1 - (W - start))), n - 1, by omega, by omega, ?_⟩
    have hi : start + (W - start - 1 - (r - (n - 1 - (W - start)))) =
        n * q + (n - 1 - (W - start)) := by omega
    have hj : start + (n - 1) = W + (n - 1 - (W - start)) := by omega
    unfold residue
    rw [hi, hj, Nat.add_mod_left,
      Nat.mod_eq_of_lt (by omega : n * q + (n - 1 - (W - start)) < W),
      Nat.mod_eq_of_lt (by omega : n - 1 - (W - start) < W), Nat.mul_add_mod]

/-- When all residues come once. -/
theorem residue_perm_iff (hn : 0 < n) (hstart : start < W) :
    ((List.range n).map (residue W start n)).Perm (List.range n) ↔ start + n ≤ W ∨ n ∣ W := by
  refine ⟨fun hperm => ?_, residue_perm⟩
  by_contra hcond
  rw [not_or, Nat.not_le] at hcond
  rcases residue_collides hn hstart hcond.1 hcond.2 with ⟨i, j, hij, hj, heq⟩
  have hnodup : ((List.range n).map (residue W start n)).Nodup :=
    hperm.nodup_iff.mpr List.nodup_range
  have hinj := List.inj_on_of_nodup_map hnodup (List.mem_range.mpr (Nat.lt_trans hij hj))
    (List.mem_range.mpr hj) heq
  omega

/-- Two lists of one length that agree but for one value agree. -/
theorem perm_of_filter_ne {l l' : List Nat} {a : Nat} (hlen : l.length = l'.length)
    (h : (l.filter (· ≠ a)).Perm (l'.filter (· ≠ a))) : l.Perm l' := by
  -- Of `a` there are as many in both, being what is left of the length.
  have hcount (l : List Nat) : l.length = l.count a + (l.filter (· ≠ a)).length := by
    rw [List.length_eq_countP_add_countP (· == a) (l := l), List.count,
      List.countP_eq_length_filter (p := fun x => ¬ (x == a) = true)]
    congr 3
    ext x
    simp
  rw [List.perm_iff_count]
  intro x
  by_cases hx : x = a
  · subst hx
    have h1 := hcount l
    have h2 := hcount l'
    have h3 := h.length_eq
    omega
  · have h1 := h.count_eq x
    rw [List.count_filter (by simpa using hx), List.count_filter (by simpa using hx)] at h1
    exact h1

end Wrap

end Cmpth

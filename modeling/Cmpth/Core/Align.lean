import Mathlib.Data.Nat.Bitwise
import Mathlib.Tactic.Common

/-!
# Alignment

Addresses rounded down and up to an alignment, and the mask that does the former.

Rounding down is right adjoint to rounding up. That is all there is to know about a chain of
roundings in one direction: whether its end is far enough up is decided by the chain of
roundings in the other direction, and no estimate of what either loses is needed.

## Main definitions

* `down`, `up`: The next multiple below and above.

## Theorems

* `le_down_iff`: The adjunction.
* `toNat_and_not`: Masking out the low bits of a word rounds it down.
* `down_le`, `lt_down_add`, `dvd_down`, `le_up`: Where the next multiples are.
* `le_down_of_dvd`, `up_le_of_dvd`: The multiples beyond them.
-/

namespace Cmpth

namespace Align

/-- The last multiple of `a` that is not above `n`. -/
def down (n a : Nat) : Nat :=
  n / a * a

/-- The first multiple of `a` that is not below `n`. -/
def up (n a : Nat) : Nat :=
  (n + a - 1) / a * a

theorem down_le (n a : Nat) : down n a ≤ n :=
  Nat.div_mul_le_self n a

theorem lt_down_add {n a : Nat} (ha : 0 < a) : n < down n a + a :=
  Nat.lt_div_mul_add ha

theorem dvd_down (n a : Nat) : a ∣ down n a :=
  Nat.dvd_mul_left a (n / a)

theorem le_up {n a : Nat} (ha : 0 < a) : n ≤ up n a := by
  have h := lt_down_add (n := n + a - 1) ha
  unfold up
  unfold down at h
  omega

/-- A multiple below `n` is below the next multiple below. -/
theorem le_down_of_dvd {m n a : Nat} (hd : a ∣ m) (h : m ≤ n) : m ≤ down n a := by
  rcases hd with ⟨q, rfl⟩
  rcases Nat.eq_zero_or_pos a with rfl | ha
  · simp
  · unfold down
    rw [Nat.mul_comm]
    exact Nat.mul_le_mul_right a ((Nat.le_div_iff_mul_le ha).mpr (by rwa [Nat.mul_comm]))

/-- A multiple above `m` is above the next multiple above. -/
theorem up_le_of_dvd {m n a : Nat} (ha : 0 < a) (hd : a ∣ n) (h : m ≤ n) : up m a ≤ n := by
  rcases hd with ⟨q, rfl⟩
  have hq : (m + a - 1) / a ≤ q := by
    rw [← Nat.lt_succ_iff, Nat.div_lt_iff_lt_mul ha, Nat.succ_mul, Nat.mul_comm]
    omega
  unfold up
  rw [Nat.mul_comm a q]
  exact Nat.mul_le_mul_right a hq

theorem le_down_iff {m n a : Nat} (ha : 0 < a) : m ≤ down n a ↔ up m a ≤ n := by
  constructor
  · intro h
    exact le_trans (up_le_of_dvd ha (dvd_down n a) h) (down_le n a)
  · intro h
    exact le_trans (le_up ha) (le_down_of_dvd (Nat.dvd_mul_left a _) h)

/-- Masking out the bits below an alignment rounds down to it. -/
theorem toNat_and_not {w k : Nat} (x y : BitVec w) (h : y.toNat = 2 ^ k) :
    (x &&& ~~~(y - 1)).toNat = down x.toNat (2 ^ k) := by
  have hy := y.isLt
  have hkw : k < w := by
    rw [h] at hy
    exact (Nat.pow_lt_pow_iff_right (by omega)).mp hy
  have hone : (1 : BitVec w).toNat = 1 := by
    have hw : 1 < 2 ^ w := Nat.one_lt_two_pow (by omega)
    simp [Nat.mod_eq_of_lt hw]
  have hmask : (y - 1).toNat = 2 ^ k - 1 := by
    have hpos : 0 < 2 ^ k := Nat.two_pow_pos k
    rw [BitVec.toNat_sub_of_le (by rw [BitVec.le_def, hone, h]; exact hpos), h, hone]
  -- Bit by bit: the bits below `k` go, the others stay.
  have hshift : x &&& ~~~(y - 1) = x >>> k <<< k := by
    ext i hi
    have hbit : (y - 1)[i] = decide (i < k) := by
      rw [← BitVec.getLsbD_eq_getElem, BitVec.getLsbD, hmask, Nat.testBit_two_pow_sub_one]
    simp only [BitVec.getElem_and, BitVec.getElem_not, hbit, BitVec.getElem_shiftLeft]
    by_cases hik : i < k
    · simp [hik]
    · simp [hik, Nat.add_sub_of_le (Nat.le_of_not_lt hik), BitVec.getLsbD_eq_getElem hi]
  rw [hshift, BitVec.toNat_shiftLeft, BitVec.toNat_ushiftRight, Nat.shiftLeft_eq,
    Nat.shiftRight_eq_div_pow]
  exact Nat.mod_eq_of_lt (lt_of_le_of_lt (down_le _ _) x.isLt)

end Align

end Cmpth

import Mathlib.Data.Nat.Bitwise
import Mathlib.Tactic.Common

/-!
# Tagged Slots

`AtomicTaggedSlot`: an atomic word that is empty or holds one pointer, with a tag
in the bits that the pointer's alignment leaves clear.

How many bits that is, `k`, is a parameter of the type. Where a pointer is published
or read back the compiler checks that its type is aligned to `2 ^ k`. This is what
`Ptr k` carries, together with the pointer not being null, so that no value which
could not be read back can be published. The tag of a value is checked in debug
builds, and is a field of `Tag k` here.

## Main definitions

* `Ptr`: A non-null address aligned to `2 ^ k`.
* `Tag`: A tag of at most `k` bits.
* `publish`: The word that is stored.
* `take`: What is made of the word that was swapped out.
* `intoTyped`: The address in a word.

## Theorems

* `take_empty`: Nothing is read from an empty slot.
* `toNat_tagMask`, `publish_and_mask`, `intoTyped_publish`: The tag and the address in a word.
* `getElem_tagMask`: The mask has exactly the low `k` bits.
* `Ptr.getElem_addr`: An address has none of the low `k` bits.
* `Tag.getElem_val`: A tag has no others.
* `publish_ne_empty`: A published value leaves no slot empty: its address is not null.
* `take_publish`: Both the tag and the address are read back.
-/

namespace Cmpth

namespace Slot

/-- The contents of an `AtomicUsize`. -/
abbrev Word := BitVec 64

/-- `TAG_MASK`. -/
def tagMask (k : ℕ) : Word := ((1 : Word) <<< k) - 1

/-- The address of a value whose type has the alignment that a slot asks for. -/
structure Ptr (k : ℕ) where
  addr : Word
  aligned : 2 ^ k ∣ addr.toNat
  ne_zero : addr ≠ 0
  deriving DecidableEq

/-- A tag that fits in the low bits. -/
structure Tag (k : ℕ) where
  val : Word
  le_mask : val ≤ tagMask k
  deriving DecidableEq

/-- The word of a slot in which nobody waits. -/
def empty : Word := 0

/-- The word that `publish` stores. -/
def publish {k : ℕ} (p : Ptr k) (t : Tag k) : Word := p.addr ||| t.val

/-- What `take` makes of the word that it swaps out. -/
def take (k : ℕ) (word : Word) : Option (Word × Word) :=
  if word ≠ 0 then some (word &&& tagMask k, word) else none

/-- `TaggedPtr::into_typed`. -/
def intoTyped (k : ℕ) (word : Word) : Word := word &&& ~~~tagMask k

@[simp] theorem take_empty (k : ℕ) : take k empty = none := if_neg (not_not_intro rfl)

theorem toNat_tagMask {k : ℕ} (hk : k < 64) : (tagMask k).toNat = 2 ^ k - 1 := by
  have hpow : 2 ^ k < 2 ^ 64 := Nat.pow_lt_pow_right (by omega) hk
  have hpos : 0 < 2 ^ k := Nat.two_pow_pos k
  have hone : ((1 : Word) <<< k).toNat = 2 ^ k := by
    rw [BitVec.toNat_shiftLeft, show (1 : Word).toNat = 1 from rfl, Nat.shiftLeft_eq,
      Nat.one_mul, Nat.mod_eq_of_lt hpow]
  rw [tagMask, BitVec.toNat_sub, hone, show (1 : Word).toNat = 1 from rfl]
  omega

/-- The mask has exactly the low `k` bits. -/
theorem getElem_tagMask (k i : ℕ) (hi : i < 64) : (tagMask k)[i] = decide (i < k) := by
  rw [BitVec.getElem_eq_testBit_toNat]
  by_cases hk : k < 64
  · rw [toNat_tagMask hk, Nat.testBit_two_pow_sub_one]
  · -- Shifted out altogether, the one leaves all bits to be borrowed.
    have hzero : (1 : Word) <<< k = 0 := by
      ext j hj
      rw [BitVec.getElem_shiftLeft]
      simp only [show j < k by omega, decide_true, Bool.not_true, Bool.false_and]
      exact (BitVec.getElem_zero hj).symm
    rw [tagMask, hzero]
    have hall : ((0 : Word) - 1).toNat = 2 ^ 64 - 1 := by decide
    rw [hall, Nat.testBit_two_pow_sub_one]
    simp only [hi, show i < k by omega]

/-- An address has none of the low `k` bits. -/
theorem Ptr.getElem_addr {k : ℕ} (p : Ptr k) {i : ℕ} (hi : i < 64) (hik : i < k) :
    p.addr[i] = false := by
  obtain ⟨m, hm⟩ := p.aligned
  rw [BitVec.getElem_eq_testBit_toNat, hm, Nat.testBit_two_pow_mul]
  simp only [show ¬ k ≤ i by omega, decide_false, Bool.false_and]

/-- A tag has no others. -/
theorem Tag.getElem_val {k : ℕ} (t : Tag k) {i : ℕ} (hi : i < 64) (hik : k ≤ i) :
    t.val[i] = false := by
  have hk : k < 64 := by omega
  have hle : t.val.toNat ≤ (tagMask k).toNat := BitVec.le_def.mp t.le_mask
  rw [toNat_tagMask hk] at hle
  have hpos : 0 < 2 ^ k := Nat.two_pow_pos k
  rw [BitVec.getElem_eq_testBit_toNat]
  refine Nat.testBit_lt_two_pow ?_
  calc t.val.toNat < 2 ^ k := by omega
    _ ≤ 2 ^ i := Nat.pow_le_pow_right (by omega) hik

theorem publish_and_mask {k : ℕ} (p : Ptr k) (t : Tag k) :
    publish p t &&& tagMask k = t.val := by
  ext i hi
  rw [publish, BitVec.getElem_and, BitVec.getElem_or, getElem_tagMask]
  by_cases hik : i < k
  · simp only [p.getElem_addr hi hik, hik, Bool.false_or, decide_true, Bool.and_true]
  · simp only [t.getElem_val hi (by omega), hik, decide_false, Bool.and_false]

theorem intoTyped_publish {k : ℕ} (p : Ptr k) (t : Tag k) :
    intoTyped k (publish p t) = p.addr := by
  ext i hi
  rw [intoTyped, publish, BitVec.getElem_and, BitVec.getElem_or, BitVec.getElem_not,
    getElem_tagMask]
  by_cases hik : i < k
  · simp only [p.getElem_addr hi hik, hik, decide_true, Bool.not_true, Bool.and_false]
  · simp only [t.getElem_val hi (by omega), hik, decide_false, Bool.not_false, Bool.and_true,
      Bool.or_false]

/-- A published value leaves no slot empty: its address is not null. -/
theorem publish_ne_empty {k : ℕ} (p : Ptr k) (t : Tag k) : publish p t ≠ empty := by
  intro h
  refine p.ne_zero ?_
  rw [← intoTyped_publish p t, h, intoTyped, empty]
  exact BitVec.zero_and

/-- What is taken after a value was published is its tag, and a word that still has its
    address. -/
theorem take_publish {k : ℕ} (p : Ptr k) (t : Tag k) :
    take k (publish p t) = some (t.val, publish p t) := by
  have hne : publish p t ≠ 0 := publish_ne_empty p t
  rw [take, if_pos hne, publish_and_mask]

end Slot

end Cmpth

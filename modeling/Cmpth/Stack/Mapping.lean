import Cmpth.Stack.Placement

/-!
# The Mapping of a Stack

What `HeapStack::alloc_stack` maps for a stack of a given size, and what is unmapped
when it is freed.

The size is rounded up to whole pages and one page is added for the guard. In a build
without overflow checks both sums may wrap, and they do so differently. If the second
one does, the length is zero, which `mmap` refuses. If the first one does, the size
rounds up to nothing: the guard page is mapped alone, and the stack above it is empty.

## Main definitions

* `deallocHeapStack`: What `HeapStackMem::drop` unmaps.
* `Mapped`: The usable region is big enough, directly above a guard page, and both are
  the mapping that will be freed.

## Theorems

* `toNat_atLeast16`: A size is raised to sixteen bytes.
* `guarded_of_alloc`: The region is the mapping less its first page, and it is unmapped as a whole.
* `mapped_of_le`: A sum that does not wrap gives such a region.
* `size_eq_zero`: A sum that wraps comes out below one page, so that nothing is left of it.
* `alloc_mapped_iff`: It is the only way, unless the mapping fails.
* `mapped_default`: A stack of the default size.
* `alloc_empty`: A stack of nearly the whole address space is allocated empty.
-/

namespace Cmpth

namespace Stack

open Align (down up)

/-- `dealloc_heap_stack`: the start and the length for `munmap`, recomputed from the
    usable part. -/
def deallocHeapStack (page : Usize) (m : StackMem) : Usize × Usize :=
  (m.ptr - page, page + m.size)

/-- The usable region has the size and is a number of whole pages. It is what is left of
    one mapping above a guard page, and freeing it frees that mapping. -/
structure Mapped (page size : Usize) (mmap : Usize → Option Usize) (m : StackMem) : Prop where
  enough : size.toNat ≤ m.size.toNat
  whole : page.toNat ∣ m.size.toNat
  guarded : ∃ base len, mmap len = some base ∧ base.toNat + page.toNat = m.ptr.toNat ∧
    base.toNat + len.toNat = m.ptr.toNat + m.size.toNat ∧
    deallocHeapStack page m = (base, len)

section

variable {checks : Bool} {page size v : Usize} {mmap : Usize → Option Usize} {m : StackMem}
  {k : ℕ}

theorem toNat_atLeast16 (size : Usize) : (atLeast16 size).toNat = max size.toNat 16 := by
  have h16 : (16 : Usize).toNat = 16 := rfl
  unfold atLeast16
  split
  · next h =>
      rw [BitVec.lt_def, h16] at h
      omega
  · next h =>
      rw [BitVec.lt_def, h16] at h
      omega

/-- The region is the mapping less its first page, and it is unmapped as a whole. -/
theorem guarded_of_alloc (hpage : page.toNat = 2 ^ k) (hmap : MapsPages page mmap)
    (hdvd : page.toNat ∣ m.size.toNat) {base : Usize} (hb : mmap (page + m.size) = some base)
    (hptr : m.ptr = base + page) :
    ∃ base len, mmap len = some base ∧ base.toNat + page.toNat = m.ptr.toNat ∧
      base.toNat + len.toNat = m.ptr.toNat + m.size.toNat ∧
      deallocHeapStack page m = (base, len) := by
  rcases hmap _ _ hb with ⟨hpos, -, hend⟩
  have hlen := toNat_length hpage hdvd hpos
  have hbase : m.ptr.toNat = base.toNat + page.toNat := by
    rw [hptr, BitVec.toNat_add]
    omega
  refine ⟨base, page + m.size, hb, hbase.symm, by omega, ?_⟩
  unfold deallocHeapStack
  rw [hptr, BitVec.add_sub_cancel]

/-- Nothing wraps, so that the size is rounded up. -/
theorem mapped_of_le (hpage : page.toNat = 2 ^ k) (hmap : MapsPages page mmap)
    (hle : max size.toNat 16 + page.toNat ≤ 2 ^ 64)
    (hm : allocStack checks page mmap size = some m) : Mapped page size mmap m := by
  rcases allocStack_eq hm with ⟨base, hb, hptr, hsize, -⟩
  have hpos : 0 < page.toNat := by
    rw [hpage]
    exact Nat.two_pow_pos k
  have hup : m.size.toNat = up (max size.toNat 16) page.toNat := by
    rw [hsize, toNat_usable hpage, toNat_atLeast16, Nat.mod_eq_of_lt (by omega)]
    rfl
  have hdvd : page.toNat ∣ m.size.toNat := by
    rw [hup]
    exact Nat.dvd_mul_left _ _
  have henough := Align.le_up (n := max size.toNat 16) hpos
  exact ⟨by omega, hdvd, guarded_of_alloc hpage hmap hdvd hb hptr⟩

/-- A sum that wraps comes out below one page, so that nothing is left of it. -/
theorem size_eq_zero (hpage : page.toNat = 2 ^ k)
    (hwrap : 2 ^ 64 < max size.toNat 16 + page.toNat) :
    (atLeast16 size + page - 1) &&& ~~~(page - 1) = 0 := by
  have hsize := size.isLt
  have hp := page.isLt
  refine BitVec.eq_of_toNat_eq ?_
  rw [toNat_usable hpage, toNat_atLeast16]
  have hsum : (max size.toNat 16 + page.toNat - 1) % 2 ^ 64 < page.toNat := by omega
  unfold down
  rw [Nat.div_eq_of_lt hsum, Nat.zero_mul]
  rfl

/-- Whatever is allocated is as it should be, exactly if a sum that wraps is noticed or
    does not occur, or if not even the guard page can be mapped. -/
theorem alloc_mapped_iff (hpage : ∃ k, page.toNat = 2 ^ k) (hmap : MapsPages page mmap) :
    (∀ m, allocStack checks page mmap size = some m → Mapped page size mmap m) ↔
      checks = true ∨ max size.toNat 16 + page.toNat ≤ 2 ^ 64 ∨ mmap page = none := by
  rcases hpage with ⟨k, hpage⟩
  constructor
  · intro h
    by_contra hno
    simp only [not_or, Bool.not_eq_true, not_le] at hno
    rcases hno with ⟨rfl, hwrap, hguard⟩
    rcases Option.ne_none_iff_exists'.mp hguard with ⟨base, hb⟩
    have hzero := size_eq_zero hpage hwrap
    -- The guard page is all that is mapped.
    have hm : allocStack false page mmap size = some ⟨base + page, 0⟩ := by
      unfold allocStack roundUp
      change (some ((atLeast16 size + page - 1) &&& ~~~(page - 1))).bind _ = _
      rw [Option.bind_some, hzero]
      simp [hb]
    have henough := (h _ hm).enough
    have hp : page.toNat < 2 ^ 64 := page.isLt
    have hk : 2 ^ k ≤ 2 ^ 63 := by
      rw [hpage] at hp
      exact Nat.pow_le_pow_right (by omega)
        (Nat.le_of_lt_succ ((Nat.pow_lt_pow_iff_right (by omega)).mp hp))
    change size.toNat ≤ 0 at henough
    omega
  · intro hc m hm
    rcases allocStack_eq hm with ⟨base, hb, -, hsize, hsum⟩
    have hle : max size.toNat 16 + page.toNat ≤ 2 ^ 64 := by
      rw [toNat_atLeast16] at hsum
      rcases hc with rfl | hle | hnone
      · simp only [true_and, not_le] at hsum
        exact Nat.le_of_lt hsum
      · exact hle
      · by_contra hwrap
        have hzero : page + 0 = page := BitVec.add_zero page
        rw [hsize, size_eq_zero hpage (by omega), hzero, hnone] at hb
        cases hb
    exact mapped_of_le hpage hmap hle hm

end

theorem mapped_default : Mapped 4096 65536 mapLow lowStack :=
  (show (∀ m, allocStack false 4096 mapLow 65536 = some m → Mapped 4096 65536 mapLow m) ↔ _ from
    alloc_mapped_iff ⟨12, rfl⟩ mapsPages_mapLow).mpr (.inr (.inl (by decide))) _ (by decide)

/-- Without overflow checks, a stack as big as the address space is one guard page and
    nothing above it. -/
theorem alloc_empty :
    allocStack false 4096 mapLow (BitVec.ofNat 64 (2 ^ 64 - 1)) = some ⟨0x100001000, 0⟩ ∧
      ¬ Mapped 4096 (BitVec.ofNat 64 (2 ^ 64 - 1)) mapLow ⟨0x100001000, 0⟩ :=
  ⟨by decide, fun h => absurd h.enough (by decide)⟩

end Stack

end Cmpth

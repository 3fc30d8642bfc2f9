import Cmpth.Core.Align

/-!
# Closure and Result on a Task's Stack

Where `spawn` and `parallel_call` put the closure and the result slot of a task, and where its
execution stack begins.

The addresses are carved downwards from the top of the stack, by the sizes of the two types and
down to their alignments. Nothing compares them with the base. With overflow checks the first
subtraction refuses a result that is bigger than the address of the top; the second one is a
`wrapping_sub` in every build.

`HeapStack::alloc_stack` maps the stack with a guard page below it. What `mmap` returns is left
open, as far as POSIX does.

## Main definitions

* `Layout`: `std::alloc::Layout`.
* `allocStack`: `HeapStack::alloc_stack`.
* `branchLayout`, `place`: Where the closure, the result and the execution stack go.
* `Placement.Sound`: They are aligned, disjoint, and inside the stack.
* `Fits`: The sizes, with what is lost to the alignments, fit on the stack.

## Theorems

* `Layout.align_pos`: An alignment is not zero.
* `Layout.align_max`: `max(1)` does nothing.
* `toNat_alignDown`, `toNat_alignDown_16`, `toNat_sub_of_le`, `toNat_usable`: The arithmetic of
  addresses, without a wrap.
* `Layout.align_le`: The alignment of a type that has a size is at most half the address space's
  half.
* `place_eq`: The placement, in natural numbers: the subtractions wrap.
* `place_isSome`: With overflow checks, a result bigger than the address of the top is refused.
* `toNat_sub_of_lt`: A subtraction that wraps comes out a whole turn too high.
* `sound_of_fits`, `fits_of_sound`: The placement is sound exactly if they do.
* `size_le_of_sound`: A closure slot that wraps is not inside the stack: it would have to be above
  the result, and there is not so much room left to the end of the address space.
* `toNat_sum`: The sum wraps at most once.
* `allocStack_eq`: What is returned is what is mapped, less the first page.
* `toNat_length`: Whole pages that leave no room for one more fill the address space.
* `allocStack_spec`: The region is a whole number of pages, above one page for the guard, and its
  addresses do not come round.
* `place_sound_iff`: So it is for every stack that can be allocated.
* `mapsPages_mapLow`, `place_sound_small`: A small closure on a mapped stack.
* `place_below`: A closure as big as the stack is put below it.
-/

namespace Cmpth

namespace Stack

open Align (down up)

/-- `usize` of a 64-bit target. -/
abbrev Usize := BitVec 64

/-- `std::alloc::Layout` of a type: the alignment is a power of two, the size is a multiple of
    it and at most `isize::MAX`. -/
structure Layout where
  size : Usize
  align : Usize
  pow : ∃ k, align.toNat = 2 ^ k
  dvd : align.toNat ∣ size.toNat
  small : size.toNat < 2 ^ 63

/-- `addr & !(align - 1)`. -/
def alignDown (addr align : Usize) : Usize :=
  addr &&& ~~~(align - 1)

/-- `v + to - 1`, rounded down. With overflow checks the sum may be refused. -/
def roundUp (checks : Bool) (v a : Usize) : Option Usize :=
  if checks && decide (2 ^ 64 ≤ v.toNat + a.toNat) then none
  else some ((v + a - 1) &&& ~~~(a - 1))

/-- `HeapStackMem`: the usable part. -/
structure StackMem where
  ptr : Usize
  size : Usize
  deriving DecidableEq, Repr

/-- `stack_top`. -/
def StackMem.top (m : StackMem) : Usize :=
  m.ptr + m.size

/-- `HeapStack::alloc_stack`. A failing `mmap` is refused. -/
def allocStack (checks : Bool) (page : Usize) (mmap : Usize → Option Usize) (size : Usize) :
    Option StackMem := do
  let usable ← roundUp checks (if size < 16 then 16 else size) page
  if checks && decide (2 ^ 64 ≤ page.toNat + usable.toNat) then none
  else
    let base ← mmap (page + usable)
    some ⟨base + page, usable⟩

/-- `branch_layout`: the closure and the result. -/
def branchLayout (checks : Bool) (top : Usize) (f r : Layout) : Option (Usize × Usize) :=
  if checks && decide (top < r.size) then none
  else
    let result := alignDown (top - r.size) r.align
    some (alignDown (result - f.size) (if f.align < 1 then 1 else f.align), result)

/-- The addresses of the closure and of the result, and where the execution stack begins. -/
structure Placement where
  f : Usize
  result : Usize
  execTop : Usize
  deriving DecidableEq, Repr

/-- The addresses that `spawn` and `parallel_call` work with. -/
def place (checks : Bool) (m : StackMem) (f r : Layout) : Option Placement :=
  (branchLayout checks m.top f r).map fun p => ⟨p.1, p.2, alignDown p.1 16⟩

/-- Closure and result are aligned, disjoint and inside the stack, and something is left for the
    task to run on. -/
structure Placement.Sound (m : StackMem) (f r : Layout) (p : Placement) : Prop where
  f_aligned : f.align.toNat ∣ p.f.toNat
  result_aligned : r.align.toNat ∣ p.result.toNat
  disjoint : p.f.toNat + f.size.toNat ≤ p.result.toNat ∨
    p.result.toNat + r.size.toNat ≤ p.f.toNat
  f_inside : m.ptr.toNat ≤ p.f.toNat ∧ p.f.toNat + f.size.toNat ≤ m.top.toNat
  result_inside : m.ptr.toNat ≤ p.result.toNat ∧ p.result.toNat + r.size.toNat ≤ m.top.toNat
  exec : m.ptr.toNat < p.execTop.toNat

/-- The sizes, with what is lost to the alignments, fit between the base and the top. -/
def Fits (m : StackMem) (f r : Layout) : Prop :=
  r.size.toNat + up (f.size.toNat + up (m.ptr.toNat + 16) f.align.toNat) r.align.toNat ≤
    m.top.toNat

instance (m : StackMem) (f r : Layout) : Decidable (Fits m f r) :=
  inferInstanceAs (Decidable (_ ≤ _))

/-- What `mmap` promises: a region of pages, which is not empty and does not reach the end of the
    address space. -/
def MapsPages (page : Usize) (mmap : Usize → Option Usize) : Prop :=
  ∀ len p, mmap len = some p →
    0 < len.toNat ∧ page.toNat ∣ p.toNat ∧ p.toNat + len.toNat < 2 ^ 64

section

variable {m : StackMem} {f r : Layout} {checks : Bool}

theorem Layout.align_pos (l : Layout) : 0 < l.align.toNat := by
  rcases l.pow with ⟨k, hk⟩
  rw [hk]
  exact Nat.two_pow_pos k

/-- `max(1)` does nothing. -/
theorem Layout.align_max (l : Layout) : (if l.align < 1 then 1 else l.align) = l.align := by
  have h := l.align_pos
  rw [if_neg]
  rw [BitVec.lt_def]
  simpa [Nat.pos_iff_ne_zero] using h

theorem toNat_alignDown (addr : Usize) (l : Layout) :
    (alignDown addr l.align).toNat = down addr.toNat l.align.toNat := by
  rcases l.pow with ⟨k, hk⟩
  rw [hk]
  exact Align.toNat_and_not addr l.align hk

theorem toNat_alignDown_16 (addr : Usize) : (alignDown addr 16).toNat = down addr.toNat 16 :=
  Align.toNat_and_not (k := 4) addr 16 rfl

/-- The alignment of a type that has a size is at most half the address space's half. -/
theorem Layout.align_le (l : Layout) : l.size.toNat = 0 ∧ l.align.toNat ≤ 2 ^ 63 ∨
    0 < l.size.toNat ∧ l.align.toNat ≤ 2 ^ 62 := by
  rcases l.pow with ⟨k, hk⟩
  have hlt : 2 ^ k < 2 ^ 64 := hk ▸ l.align.isLt
  rcases Nat.eq_zero_or_pos l.size.toNat with h0 | hpos
  · have hle : k ≤ 63 := by
      have := (Nat.pow_lt_pow_iff_right (by omega)).mp hlt
      omega
    exact .inl ⟨h0, hk ▸ Nat.pow_le_pow_right (by omega) hle⟩
  · have hsmall : 2 ^ k < 2 ^ 63 :=
      lt_of_le_of_lt (hk ▸ Nat.le_of_dvd hpos l.dvd) l.small
    have hle : k ≤ 62 := by
      have := (Nat.pow_lt_pow_iff_right (by omega)).mp hsmall
      omega
    exact .inr ⟨hpos, hk ▸ Nat.pow_le_pow_right (by omega) hle⟩

/-- The placement, in natural numbers: the subtractions wrap. -/
theorem place_eq {p : Placement} (hp : place checks m f r = some p) :
    p.result.toNat = down ((m.top - r.size).toNat) r.align.toNat ∧
      p.f.toNat = down ((p.result - f.size).toNat) f.align.toNat ∧
      p.execTop.toNat = down p.f.toNat 16 := by
  unfold place branchLayout at hp
  rw [f.align_max] at hp
  split at hp
  · cases hp
  · cases hp
    exact ⟨toNat_alignDown _ _, toNat_alignDown _ _, toNat_alignDown_16 _⟩

/-- With overflow checks, a result bigger than the address of the top is refused. -/
theorem place_isSome :
    (place checks m f r).isSome = true ↔ ¬ (checks = true ∧ m.top.toNat < r.size.toNat) := by
  unfold place branchLayout
  rw [Option.isSome_map]
  split
  · next h =>
      simp only [Bool.and_eq_true, decide_eq_true_eq, BitVec.lt_def] at h
      simp [h]
  · next h =>
      simp only [Bool.and_eq_true, decide_eq_true_eq, BitVec.lt_def] at h
      simp [h]

theorem toNat_sub_of_le {a b : Usize} (h : b.toNat ≤ a.toNat) :
    (a - b).toNat = a.toNat - b.toNat :=
  BitVec.toNat_sub_of_le h

/-- A subtraction that wraps comes out a whole turn too high. -/
theorem toNat_sub_of_lt {a b : Usize} (h : a.toNat < b.toNat) :
    (a - b).toNat = a.toNat + 2 ^ 64 - b.toNat := by
  have ha := a.isLt
  have hb := b.isLt
  rw [BitVec.toNat_sub]
  omega

/-- Everything fits, so that no subtraction wraps and every address is where it should be. -/
theorem sound_of_fits (hbase : 16 ∣ m.ptr.toNat) (h : Fits m f r) {p : Placement}
    (hp : place checks m f r = some p) : p.Sound m f r := by
  have hfpos := f.align_pos
  have hrpos := r.align_pos
  unfold Fits at h
  have hr : r.size.toNat ≤ m.top.toNat := le_trans (Nat.le_add_right _ _) h
  rcases place_eq hp with ⟨hres, hf, hexec⟩
  rw [toNat_sub_of_le hr] at hres
  -- From the top down: the result, the closure, and room for the execution stack.
  have hresult : f.size.toNat + up (m.ptr.toNat + 16) f.align.toNat ≤ p.result.toNat := by
    rw [hres, Align.le_down_iff hrpos]
    omega
  rw [toNat_sub_of_le (le_trans (Nat.le_add_right _ _) hresult)] at hf
  have hclosure : m.ptr.toNat + 16 ≤ p.f.toNat := by
    rw [hf, Align.le_down_iff hfpos]
    omega
  have hfsub : p.f.toNat ≤ p.result.toNat - f.size.toNat := by
    rw [hf]
    exact Align.down_le _ _
  have hrsub : p.result.toNat ≤ m.top.toNat - r.size.toNat := by
    rw [hres]
    exact Align.down_le _ _
  have hexecLe : m.ptr.toNat + 16 ≤ p.execTop.toNat := by
    rw [hexec]
    exact Align.le_down_of_dvd (Nat.dvd_add hbase (Nat.dvd_refl 16)) hclosure
  exact
    { f_aligned := by
        rw [hf]
        exact Align.dvd_down _ _
      result_aligned := by
        rw [hres]
        exact Align.dvd_down _ _
      disjoint := .inl (by omega)
      f_inside := ⟨by omega, by omega⟩
      result_inside := ⟨by omega, by omega⟩
      exec := by omega }

/-- A closure slot that wraps is not inside the stack: it would have to be above the result, and
    there is not so much room left to the end of the address space. -/
theorem size_le_of_sound {p : Placement} (h : p.Sound m f r)
    (hres : p.result.toNat = down (m.top.toNat - r.size.toNat) r.align.toNat)
    (hf : p.f.toNat = down ((p.result - f.size).toNat) f.align.toNat) :
    f.size.toNat ≤ p.result.toNat := by
  by_contra hlt
  rw [toNat_sub_of_lt (by omega)] at hf
  -- Both addresses are rounded down, by less than an alignment.
  have hflow := Align.lt_down_add (n := p.result.toNat + 2 ^ 64 - f.size.toNat) f.align_pos
  have hrlow := Align.lt_down_add (n := m.top.toNat - r.size.toNat) r.align_pos
  rw [← hf] at hflow
  rw [← hres] at hrlow
  have hfa := f.align_le
  have hra := r.align_le
  have hsmall := r.small
  have hsize := f.size.isLt
  have hrdvd : 0 < r.size.toNat → r.align.toNat ≤ r.size.toNat :=
    fun hpos => Nat.le_of_dvd hpos r.dvd
  have hinside := h.f_inside.2
  have hrinside := h.result_inside.2
  rcases h.disjoint with hd | hd <;> omega

/-- What is sound fits: the roundings are taken back one by one. -/
theorem fits_of_sound (hbase : 16 ∣ m.ptr.toNat) {p : Placement}
    (hp : place checks m f r = some p) (h : p.Sound m f r) : Fits m f r := by
  have hfpos := f.align_pos
  have hrpos := r.align_pos
  have hr : r.size.toNat ≤ m.top.toNat :=
    le_trans (Nat.le_add_left _ _) h.result_inside.2
  rcases place_eq hp with ⟨hres, hf, hexec⟩
  rw [toNat_sub_of_le hr] at hres
  have hsize := size_le_of_sound h hres hf
  rw [toNat_sub_of_le hsize] at hf
  -- The base and the top of the execution stack are both multiples of 16.
  have hexecLe : m.ptr.toNat + 16 ≤ p.execTop.toNat := by
    have hd : 16 ∣ p.execTop.toNat := by
      rw [hexec]
      exact Align.dvd_down _ _
    have hlt := h.exec
    omega
  have hclosure : up (m.ptr.toNat + 16) f.align.toNat ≤ p.result.toNat - f.size.toNat := by
    rw [← Align.le_down_iff hfpos, ← hf]
    exact le_trans hexecLe (hexec ▸ Align.down_le _ _)
  have hresult : up (f.size.toNat + up (m.ptr.toNat + 16) f.align.toNat) r.align.toNat ≤
      m.top.toNat - r.size.toNat := by
    rw [← Align.le_down_iff hrpos, ← hres]
    omega
  unfold Fits
  omega

end

/-- The size that is rounded up. -/
def atLeast16 (size : Usize) : Usize :=
  if size < 16 then 16 else size

section

variable {checks : Bool} {page size v : Usize} {mmap : Usize → Option Usize} {m : StackMem}
  {k : ℕ}

/-- The sum wraps at most once. -/
theorem toNat_sum (hpos : 0 < page.toNat) :
    (v + page - 1).toNat = (v.toNat + page.toNat - 1) % 2 ^ 64 := by
  have hone : (1 : Usize).toNat = 1 := rfl
  rw [BitVec.toNat_sub, BitVec.toNat_add, hone]
  omega

theorem toNat_usable (hpage : page.toNat = 2 ^ k) :
    ((v + page - 1) &&& ~~~(page - 1)).toNat =
      down ((v.toNat + page.toNat - 1) % 2 ^ 64) page.toNat := by
  rw [Align.toNat_and_not _ _ hpage, toNat_sum (by rw [hpage]; exact Nat.two_pow_pos k), hpage]

/-- What is returned is what is mapped, less the first page. -/
theorem allocStack_eq (h : allocStack checks page mmap size = some m) :
    ∃ base, mmap (page + m.size) = some base ∧ m.ptr = base + page ∧
      m.size = (atLeast16 size + page - 1) &&& ~~~(page - 1) ∧
      ¬ (checks = true ∧ 2 ^ 64 ≤ (atLeast16 size).toNat + page.toNat) := by
  unfold allocStack roundUp at h
  change (if checks && decide (2 ^ 64 ≤ (atLeast16 size).toNat + page.toNat) then none
    else some ((atLeast16 size + page - 1) &&& ~~~(page - 1))).bind _ = some m at h
  -- In a checked build the sum that overflows panics.
  split at h
  · cases h
  · next hsum =>
      rw [Option.bind_some] at h
      split at h
      · cases h
      · cases hb : mmap (page + ((atLeast16 size + page - 1) &&& ~~~(page - 1))) with
        | none =>
            rw [hb] at h
            cases h
        | some base =>
            rw [hb] at h
            cases h
            exact ⟨base, hb, rfl, rfl, by simpa using hsum⟩

/-- Whole pages that leave no room for one more fill the address space. -/
theorem toNat_length (hpage : page.toNat = 2 ^ k) (hdvd : page.toNat ∣ m.size.toNat)
    (hpos : 0 < (page + m.size).toNat) :
    (page + m.size).toNat = page.toNat + m.size.toNat := by
  have hlt := m.size.isLt
  have hpage64 : page.toNat ∣ 2 ^ 64 := by
    have hp := page.isLt
    rw [hpage] at hp ⊢
    exact Nat.pow_dvd_pow 2 (Nat.le_of_lt ((Nat.pow_lt_pow_iff_right (by omega)).mp hp))
  have hle : m.size.toNat + page.toNat ≤ 2 ^ 64 := by
    rcases hdvd with ⟨x, hx⟩
    rcases hpage64 with ⟨y, hy⟩
    have hxy : x < y := by
      rw [hx, hy] at hlt
      exact Nat.lt_of_mul_lt_mul_left hlt
    rw [hx, hy, ← Nat.mul_succ]
    exact Nat.mul_le_mul_left _ hxy
  rw [BitVec.toNat_add] at hpos ⊢
  omega

/-- The region is a whole number of pages, above one page for the guard, and its addresses do not
    come round. -/
theorem allocStack_spec (hpage : ∃ k, 4 ≤ k ∧ page.toNat = 2 ^ k) (hmap : MapsPages page mmap)
    (hm : allocStack checks page mmap size = some m) :
    16 ∣ m.ptr.toNat ∧ page.toNat ∣ m.size.toNat ∧
      m.top.toNat = m.ptr.toNat + m.size.toNat := by
  rcases hpage with ⟨k, hk, hpage⟩
  have h16 : 16 ∣ page.toNat := by
    rw [hpage]
    exact Nat.pow_dvd_pow 2 hk
  rcases allocStack_eq hm with ⟨base, hb, hptr, hsize, -⟩
  -- Both the size and the guard are whole pages.
  have hdvd : page.toNat ∣ m.size.toNat := by
    rw [hsize, toNat_usable hpage]
    exact Align.dvd_down _ _
  rcases hmap _ _ hb with ⟨hpos, hbase, hend⟩
  rw [toNat_length hpage hdvd hpos] at hend
  have hptr : m.ptr.toNat = base.toNat + page.toNat := by
    rw [hptr, BitVec.toNat_add]
    omega
  refine ⟨?_, hdvd, ?_⟩
  · rw [hptr]
    exact Nat.dvd_add (Nat.dvd_trans h16 hbase) h16
  · simp only [StackMem.top]
    rw [BitVec.toNat_add, hptr]
    omega

end

/-- On every stack that can be allocated, for all layouts: closure and result are where they
    should be, or the operation is refused, exactly if the result is too big for the overflow
    check or everything fits. -/
theorem place_sound_iff {checks : Bool} {page size : Usize} {mmap : Usize → Option Usize}
    {m : StackMem} (hpage : ∃ k, 4 ≤ k ∧ page.toNat = 2 ^ k) (hmap : MapsPages page mmap)
    (hm : allocStack checks page mmap size = some m) (f r : Layout) :
    (∀ p, place checks m f r = some p → p.Sound m f r) ↔
      checks = true ∧ m.top.toNat < r.size.toNat ∨ Fits m f r := by
  have hbase := (allocStack_spec hpage hmap hm).1
  constructor
  · intro h
    by_cases hc : checks = true ∧ m.top.toNat < r.size.toNat
    · exact .inl hc
    · rcases Option.isSome_iff_exists.mp ((place_isSome (f := f)).mpr hc) with ⟨p, hp⟩
      exact .inr (fits_of_sound hbase hp (h p hp))
  · rintro (hc | hfits) p hp
    · have hsome : (place checks m f r).isSome = true := by
        rw [hp]
        rfl
      exact absurd hc (place_isSome.mp hsome)
    · exact sound_of_fits hbase hfits hp

/-- Regions of less than half the address space, always at the same address. -/
def mapLow (len : Usize) : Option Usize :=
  if len = 0 ∨ 2 ^ 63 ≤ len.toNat then none else some 0x100000000

theorem mapsPages_mapLow : MapsPages 4096 mapLow := by
  intro len p h
  unfold mapLow at h
  split at h
  · cases h
  · next hlen =>
      cases h
      have hne : len.toNat ≠ 0 := fun h0 => hlen (.inl (BitVec.eq_of_toNat_eq h0))
      have hlt : ¬ 2 ^ 63 ≤ len.toNat := fun hle => hlen (.inr hle)
      refine ⟨Nat.pos_of_ne_zero hne, by decide, ?_⟩
      rw [show (0x100000000 : Usize).toNat = 0x100000000 from rfl]
      omega

/-- The stack of the default size, 64 KiB, on a machine with pages of 4 KiB. -/
def lowStack : StackMem where
  ptr := 0x100001000
  size := 65536

/-- A closure that has captured `n` bytes. -/
def bytes (n : Usize) (h : n.toNat < 2 ^ 63) : Layout where
  size := n
  align := 1
  pow := ⟨0, rfl⟩
  dvd := Nat.one_dvd _
  small := h

/-- The result of a task that returns a word. -/
def wordResult : Layout where
  size := 16
  align := 8
  pow := ⟨3, rfl⟩
  dvd := ⟨2, rfl⟩
  small := by decide

theorem place_sound_small :
    Placement.Sound lowStack (bytes 256 (by decide)) wordResult
      ⟨0x100010ef0, 0x100010ff0, 0x100010ef0⟩ :=
  (place_sound_iff ⟨12, by decide, rfl⟩ mapsPages_mapLow
    (show allocStack true 4096 mapLow 65536 = some lowStack by decide) _ _).mpr
    (.inr (by decide)) _
    (show place true lowStack (bytes 256 (by decide)) wordResult = some _ by decide)

/-- A closure of 64 KiB does not fit on the stack beside its result, and nobody notices, with
    overflow checks or without: it is written to the guard page. -/
theorem place_below :
    allocStack true 4096 mapLow 65536 = some lowStack ∧
      place true lowStack (bytes 65536 (by decide)) wordResult =
        some ⟨0x100000ff0, 0x100010ff0, 0x100000ff0⟩ ∧
      place false lowStack (bytes 65536 (by decide)) wordResult =
        some ⟨0x100000ff0, 0x100010ff0, 0x100000ff0⟩ ∧
      ¬ Placement.Sound lowStack (bytes 65536 (by decide)) wordResult
        ⟨0x100000ff0, 0x100010ff0, 0x100000ff0⟩ :=
  ⟨by decide, by decide, by decide, fun h => absurd h.f_inside.1 (by decide)⟩

end Stack

end Cmpth

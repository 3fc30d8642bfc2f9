import Cmpth.Stack.Mapping

/-!
# The Frame of an Async Task

Where `build_async_task` puts the future and the result slot of a task, and where
`poll_spawned_task` looks for them.

The frame is asked for by size, and comes from a pool whose slots may be bigger, so that
the addresses are carved from the top of what has come. The poll has only the descriptor,
and carves the same way. The request has room for both sizes and for what the two
alignments may lose; of a type that the compiler accepts the sum does not wrap.

## Main definitions

* `TypeLayout`: The layout of a type that a program can have.
* `stackSize`: The size that is asked for.
* `poolAlloc`, `mallocFrame`: The pool, and what its slots come from.
* `buildAsyncTask`, `pollSpawnedTask`: The writer and the reader.
* `carved`: What the two of them compute.
* `AsyncTask.Sound`: Future and result are aligned, disjoint and inside the frame.

## Theorems

* `serves_pool`, `serves_mallocFrame`, `serves_heapStack`: A frame is at least as big as was asked
  for.
* `checkedAdd_eq`, `stackSize_eq`: The size that is asked for is the sum it is meant to be.
* `serves_stackSize`: So a mapped stack is big enough for it.
* `pollSpawnedTask_eq`: The reader does what the writer has done.
* `sound_of_room`: Where there is room, no subtraction wraps.
* `async_frame_sound`: Whatever frame comes, the two slots are in it, and the poll finds them.
* `lowMalloc_end`, `async_frame_small`: A small task, on a pool of this kind.
-/

namespace Cmpth

namespace Stack

open Align (down)

/-- The layout of a type that a program can have: the compiler refuses a type of 2^61 bytes
    or more, and an alignment above 2^29. -/
structure TypeLayout extends Layout where
  bounded : size.toNat < 2 ^ 61
  aligned : align.toNat ≤ 2 ^ 29

/-- A sum, refused in a build with overflow checks if it wraps. -/
def checkedAdd (checks : Bool) (a b : Usize) : Option Usize :=
  if checks && decide (2 ^ 64 ≤ a.toNat + b.toNat) then none else some (a + b)

/-- `stack_size`: both slots, with worst-case padding. -/
def stackSize (checks : Bool) (f r : Layout) : Option Usize := do
  let a ← checkedAdd checks r.size r.align
  let b ← checkedAdd checks a f.size
  let c ← checkedAdd checks b f.align
  checkedAdd checks c 16

/-- `MallocFrame::alloc_stack`, from the global allocator. -/
def mallocFrame (alloc : Usize → Option Usize) (size : Usize) : Option StackMem :=
  (alloc (atLeast16 size)).map fun ptr => ⟨ptr, atLeast16 size⟩

/-- `ReturnPool::alloc`: a slot, or for a size that no slot has a frame of its own. -/
def poolAlloc (slot : Usize → Option StackMem) (oversized : Usize → Option StackMem)
    (slotSize size : Usize) : Option StackMem :=
  if slotSize < size then oversized size else slot slotSize

/-- `BuiltAsyncTask`: the frame of the descriptor, and the two pointers. -/
structure AsyncTask where
  mem : StackMem
  fPtr : Usize
  resultPtr : Usize
  deriving DecidableEq, Repr

/-- `build_async_task`, up to the writing of the future. -/
def buildAsyncTask (checks : Bool) (alloc : Usize → Option StackMem) (f r : Layout) :
    Option AsyncTask := do
  let size ← stackSize checks f r
  let mem ← alloc size
  if checks && decide (mem.top < r.size) then none
  else
    let resultAddr := alignDown (mem.top - r.size) r.align
    let fAddr := alignDown (resultAddr - f.size) (if f.align < 1 then 1 else f.align)
    some ⟨mem, fAddr, resultAddr⟩

/-- `poll_spawned_task`, up to the poll: the addresses of the future and of the result. -/
def pollSpawnedTask (checks : Bool) (mem : StackMem) (f r : Layout) : Option (Usize × Usize) :=
  if checks && decide (mem.top < r.size) then none
  else
    let resultAddr := alignDown (mem.top - r.size) r.align
    some (alignDown (resultAddr - f.size) (if f.align < 1 then 1 else f.align), resultAddr)

/-- What is carved from the top of a frame. -/
def carved (mem : StackMem) (f r : Layout) : AsyncTask where
  mem := mem
  fPtr := alignDown (alignDown (mem.top - r.size) r.align - f.size)
    (if f.align < 1 then 1 else f.align)
  resultPtr := alignDown (mem.top - r.size) r.align

/-- Future and result are aligned, disjoint and inside the frame. -/
structure AsyncTask.Sound (t : AsyncTask) (f r : Layout) : Prop where
  f_aligned : f.align.toNat ∣ t.fPtr.toNat
  result_aligned : r.align.toNat ∣ t.resultPtr.toNat
  disjoint : t.fPtr.toNat + f.size.toNat ≤ t.resultPtr.toNat
  f_inside : t.mem.ptr.toNat ≤ t.fPtr.toNat
  result_inside : t.resultPtr.toNat + r.size.toNat ≤ t.mem.ptr.toNat + t.mem.size.toNat

/-- An allocator of frames: what it returns is at least as big as was asked for, and its
    addresses do not come round. -/
def Serves (alloc : Usize → Option StackMem) (size : Usize) : Prop :=
  ∀ m, alloc size = some m →
    size.toNat ≤ m.size.toNat ∧ m.ptr.toNat + m.size.toNat < 2 ^ 64

section

variable {checks : Bool} {alloc slot oversized : Usize → Option StackMem} {size : Usize}

theorem serves_pool {slotSize : Usize} (hslot : Serves slot slotSize)
    (hover : Serves oversized size) : Serves (poolAlloc slot oversized slotSize) size := by
  intro m hm
  unfold poolAlloc at hm
  split at hm
  · exact hover m hm
  · next hle =>
      rw [BitVec.lt_def] at hle
      rcases hslot m hm with ⟨henough, hend⟩
      exact ⟨by omega, hend⟩

theorem serves_mallocFrame {malloc : Usize → Option Usize}
    (h : ∀ n p, malloc n = some p → p.toNat + n.toNat < 2 ^ 64) :
    Serves (mallocFrame malloc) size := by
  intro m hm
  rcases Option.map_eq_some_iff.mp hm with ⟨p, hp, rfl⟩
  refine ⟨?_, h _ _ hp⟩
  rw [toNat_atLeast16]
  omega

theorem serves_heapStack {page : Usize} {mmap : Usize → Option Usize}
    (hpage : ∃ k, page.toNat = 2 ^ k) (hmap : MapsPages page mmap)
    (hle : max size.toNat 16 + page.toNat ≤ 2 ^ 64) :
    Serves (allocStack checks page mmap) size := by
  intro m hm
  rcases hpage with ⟨k, hpage⟩
  have h := mapped_of_le hpage hmap hle hm
  rcases h.guarded with ⟨base, len, hb, -, hend, -⟩
  have hregion := (hmap _ _ hb).2.2
  exact ⟨h.enough, by omega⟩

theorem checkedAdd_eq (checks : Bool) {a b : Usize} (h : a.toNat + b.toNat < 2 ^ 64) :
    checkedAdd checks a b = some (a + b) ∧ (a + b).toNat = a.toNat + b.toNat := by
  constructor
  · unfold checkedAdd
    rw [if_neg]
    simp only [Bool.and_eq_true, decide_eq_true_eq, not_and, not_le]
    exact fun _ => h
  · rw [BitVec.toNat_add]
    omega

/-- Of two types the size of the frame is the sum it is meant to be. -/
theorem stackSize_eq (checks : Bool) (f r : TypeLayout) :
    ∃ n, stackSize checks f.toLayout r.toLayout = some n ∧
      n.toNat = r.size.toNat + r.align.toNat + f.size.toNat + f.align.toNat + 16 := by
  have hf := f.bounded
  have hr := r.bounded
  have hfa := f.aligned
  have hra := r.aligned
  rcases checkedAdd_eq checks (a := r.size) (b := r.align) (by omega) with ⟨h1, hn1⟩
  rcases checkedAdd_eq checks (a := r.size + r.align) (b := f.size) (by omega)
    with ⟨h2, hn2⟩
  rcases checkedAdd_eq checks (a := r.size + r.align + f.size) (b := f.align)
    (by omega) with ⟨h3, hn3⟩
  have h16 : (16 : Usize).toNat = 16 := rfl
  rcases checkedAdd_eq checks (a := r.size + r.align + f.size + f.align) (b := 16)
    (by omega) with ⟨h4, hn4⟩
  refine ⟨r.size + r.align + f.size + f.align + 16, ?_, by omega⟩
  simp only [stackSize, h1, h2, h3, Option.bind_eq_bind, Option.bind_some]
  exact h4

/-- The size of a task's frame is never so big that a mapping for it wraps. -/
theorem serves_stackSize {page : Usize} {mmap : Usize → Option Usize}
    (hpage : ∃ k, page.toNat = 2 ^ k) (hmap : MapsPages page mmap) (f r : TypeLayout)
    (hsize : stackSize checks f.toLayout r.toLayout = some size) :
    Serves (allocStack checks page mmap) size := by
  refine serves_heapStack hpage hmap ?_
  obtain ⟨n, hn, hsum⟩ := stackSize_eq checks f r
  cases hsize.symm.trans hn
  have hf := f.bounded
  have hr := r.bounded
  have hfa := f.aligned
  have hra := r.aligned
  -- A page is a power of two of 64 bits, so at most half of what there is.
  have hhalf : page.toNat ≤ 2 ^ 63 := by
    obtain ⟨k, hk⟩ := hpage
    have hlt := page.isLt
    rw [hk] at hlt ⊢
    exact Nat.pow_le_pow_right Nat.two_pos
      (Nat.le_of_lt_succ ((Nat.pow_lt_pow_iff_right Nat.one_lt_two).mp hlt))
  omega

/-- The reader does what the writer has done, on the same frame. -/
theorem pollSpawnedTask_eq {f r : Layout} {t : AsyncTask}
    (h : buildAsyncTask checks alloc f r = some t) :
    pollSpawnedTask checks t.mem f r = some (t.fPtr, t.resultPtr) := by
  unfold buildAsyncTask at h
  rcases Option.bind_eq_some_iff.mp h with ⟨n, -, h⟩
  rcases Option.bind_eq_some_iff.mp h with ⟨mem, -, h⟩
  unfold pollSpawnedTask
  split at h
  · cases h
  · next hc =>
      cases h
      exact if_neg hc

/-- The addresses, in natural numbers: no subtraction wraps. -/
theorem sound_of_room {f r : TypeLayout} {mem : StackMem}
    (hroom : r.size.toNat + r.align.toNat + f.size.toNat + f.align.toNat + 16 ≤ mem.size.toNat)
    (hend : mem.ptr.toNat + mem.size.toNat < 2 ^ 64) :
    (carved mem f.toLayout r.toLayout).Sound f.toLayout r.toLayout := by
  have htop : mem.top.toNat = mem.ptr.toNat + mem.size.toNat := by
    unfold StackMem.top
    rw [BitVec.toNat_add]
    omega
  have hsub := toNat_sub_of_le (a := mem.top) (b := r.size) (by omega)
  have hres := toNat_alignDown (mem.top - r.size) r.toLayout
  rw [hsub, htop] at hres
  have hrlow := Align.lt_down_add (n := mem.ptr.toNat + mem.size.toNat - r.size.toNat)
    r.align_pos
  have hrhigh := Align.down_le (mem.ptr.toNat + mem.size.toNat - r.size.toNat) r.align.toNat
  rw [← hres] at hrlow hrhigh
  -- What is left below the result has room for the future and its alignment.
  have hfsub := toNat_sub_of_le (a := alignDown (mem.top - r.size) r.align) (b := f.size)
    (by omega)
  have hfut := toNat_alignDown (alignDown (mem.top - r.size) r.align - f.size) f.toLayout
  rw [hfsub] at hfut
  have hflow := Align.lt_down_add
    (n := (alignDown (mem.top - r.size) r.align).toNat - f.size.toNat) f.align_pos
  have hfhigh := Align.down_le
    ((alignDown (mem.top - r.size) r.align).toNat - f.size.toNat) f.align.toNat
  rw [← hfut] at hflow hfhigh
  unfold carved
  rw [f.align_max]
  constructor
  case f_aligned =>
    rw [hfut]
    exact Align.dvd_down _ _
  case result_aligned =>
    rw [hres]
    exact Align.dvd_down _ _
  case disjoint =>
    simp only
    omega
  case f_inside =>
    simp only
    omega
  case result_inside =>
    simp only
    omega

/-- For all types and every frame that is at least as big as the task asks for: the task is
    built, with both slots aligned, disjoint and inside the frame, and its polls find them
    there. Only the allocation can fail. -/
theorem async_frame_sound (checks : Bool) (f r : TypeLayout)
    (halloc : ∀ size, stackSize checks f.toLayout r.toLayout = some size → Serves alloc size) :
    ∃ size, stackSize checks f.toLayout r.toLayout = some size ∧
      ∀ mem, alloc size = some mem →
        ∃ t, buildAsyncTask checks alloc f.toLayout r.toLayout = some t ∧ t.mem = mem ∧
          t.Sound f.toLayout r.toLayout ∧
          pollSpawnedTask checks mem f.toLayout r.toLayout = some (t.fPtr, t.resultPtr) := by
  rcases stackSize_eq checks f r with ⟨size, hsize, hn⟩
  refine ⟨size, hsize, fun mem hmem => ?_⟩
  -- What was asked for has room for both objects, their padding and the header.
  rcases halloc size hsize mem hmem with ⟨henough, hend⟩
  have hroom : r.size.toNat + r.align.toNat + f.size.toNat + f.align.toNat + 16 ≤
      mem.size.toNat := by omega
  have hcheck : ¬ (checks && decide (mem.top < r.size)) = true := by
    simp only [Bool.and_eq_true, decide_eq_true_eq, not_and, BitVec.lt_def, not_lt]
    intro _
    unfold StackMem.top
    rw [BitVec.toNat_add]
    omega
  have hbuild : buildAsyncTask checks alloc f.toLayout r.toLayout =
      some (carved mem f.toLayout r.toLayout) := by
    unfold buildAsyncTask
    simp only [hsize, hmem, Option.bind_eq_bind, Option.bind_some]
    exact if_neg hcheck
  exact ⟨_, hbuild, rfl, sound_of_room hroom hend, pollSpawnedTask_eq hbuild⟩

end

/-- A future of 100 bytes that is aligned to words, and a slot of 4 KiB for it. -/
def smallFuture : TypeLayout where
  size := 104
  align := 8
  pow := wordResult.pow
  dvd := ⟨13, rfl⟩
  small := by decide
  bounded := by decide
  aligned := by decide

/-- A result of one word. -/
def wordSlot : TypeLayout where
  toLayout := wordResult
  bounded := by decide
  aligned := by decide

/-- An allocator that has one address for everything of at most a mebibyte. -/
def lowMalloc (n : Usize) : Option Usize :=
  if n.toNat ≤ 2 ^ 20 then some 0x100000000 else none

theorem lowMalloc_end (n p : Usize) (h : lowMalloc n = some p) : p.toNat + n.toNat < 2 ^ 64 := by
  unfold lowMalloc at h
  split at h
  · next hle =>
      cases h
      have hbase : (0x100000000 : Usize).toNat = 0x100000000 := rfl
      omega
  · cases h

/-- A pool of such slots, which maps what is too big for one. -/
def smallPool : Usize → Option StackMem :=
  poolAlloc (mallocFrame lowMalloc) (allocStack true 4096 mapLow) 4096

theorem async_frame_small :
    ∃ size, stackSize true smallFuture.toLayout wordSlot.toLayout = some size ∧
      ∀ mem, smallPool size = some mem →
        ∃ t, buildAsyncTask true smallPool smallFuture.toLayout wordSlot.toLayout = some t ∧
          t.mem = mem ∧ t.Sound smallFuture.toLayout wordSlot.toLayout ∧
          pollSpawnedTask true mem smallFuture.toLayout wordSlot.toLayout =
            some (t.fPtr, t.resultPtr) :=
  async_frame_sound true smallFuture wordSlot fun _ hsize =>
    serves_pool (serves_mallocFrame lowMalloc_end)
      (serves_stackSize ⟨12, rfl⟩ mapsPages_mapLow smallFuture wordSlot hsize)

end Stack

end Cmpth

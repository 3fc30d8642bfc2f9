import Mathlib.Order.MinMax
import Mathlib.Order.Nat
import Cmpth.Core.Align
import Cmpth.Pool.Recursion

/-!
# Blocks and Payloads

What `BlockPool` allocates for a payload layout, the pointers it hands out, and how
`ThresholdPool` tells its blocks from others.

A block is a header followed by the payload, with what padding the alignment of the
payload takes; callers get the address of the payload. The offset is computed once, from
the threshold, and a request that is smaller or less aligned makes do with it. A pointer
that comes back is moved down by the offset, and which of the two allocators it goes to
is decided by its layout again.

Addresses are natural numbers: a block does not reach beyond the end of the address
space. The operations on the lists are taken as single steps.

## Main definitions

* `Layout.Valid`: What `std::alloc::Layout` guarantees.
* `Layout.extend`, `Layout.padToAlign`: Of the standard library.
* `BlockPool`, `ThresholdPool`: The pools, with `payloadOf` and `headerOf`.
* `State`, `Action`, `system`: The blocks and the pointers that callers hold.
* `Sound`: A pointer is aligned, with its header and its payload in one block.
* `Served`: A request has been given a pointer that is.
* `Returned`: A pointer has gone back to where it came from.
* `Fits`: What the pool has computed from the threshold.
* `Inv`: The invariant.

## Theorems

* `dvd_of_pow_le`: Of two powers of two the smaller divides the other.
* `Layout.Valid.align_pos`: An alignment is not zero.
* `new_spec`: The block has room for both, and the offset keeps the alignment.
* `sound_payload`: So the payload of any block of the pool is sound.
* `Sound.mono`, `Served.hold`: More blocks make no pointer less sound.
* `Inv.hold`, `Inv.setLists`, `Inv.allocFresh`: What a caller holds, what the lists hold and what is
  allocated anew.
* `served_alloc`: Every request is served by a sound pointer.
* `inv_alloc`, `inv_dealloc`, `inv_next`: The operations keep the invariant.
* `returned_dealloc`: Every pointer returns to where it came from.
* `listed_dealloc`: A block of the pool that comes back is on the lists with those that were there.
* `blocks_dealloc`: Giving back frees no block.
* `inv_start`: The invariant of a pool with nothing in it.
* `payload_sound`: So in every state that callers can bring the pool to, each request is served,
  what they hold is sound, and it returns.
* `payload_sound_reused`: A block that is handed out twice, and a request beyond the threshold.
-/

namespace Cmpth

namespace Pool

namespace Blocks

open Align (up)

/-- What holds of every layout: the alignment is a power of two, and the size rounded up
    to it is at most `isize::MAX`. -/
def Layout.Valid (l : Layout) : Prop :=
  (∃ k, l.align = 2 ^ k) ∧ up l.size l.align < 2 ^ 63

/-- `Layout::extend`: the second layout behind the first, and its offset. -/
def Layout.extend (a b : Layout) : Option (Layout × ℕ) :=
  let offset := up a.size b.align
  let l : Layout := ⟨offset + b.size, max a.align b.align⟩
  if up l.size l.align < 2 ^ 63 then some (l, offset) else none

/-- `Layout::pad_to_align`. -/
def Layout.padToAlign (l : Layout) : Layout :=
  ⟨up l.size l.align, l.align⟩

/-- `Layout::new::<BlockHeader>()`: two words. -/
def headerLayout : Layout :=
  ⟨16, 8⟩

/-- `BlockPool`, less the lists. -/
structure BlockPool where
  blockLayout : Layout
  payloadOffset : ℕ
  deriving DecidableEq, Repr

/-- `BlockPool::new`, which refuses a payload that is too big. -/
def BlockPool.new (payload : Layout) : Option BlockPool :=
  (Layout.extend headerLayout payload).map fun p => ⟨Layout.padToAlign p.1, p.2⟩

/-- `BlockPool::header_of`. -/
def BlockPool.headerOf (p : BlockPool) (payload : ℕ) : ℕ :=
  payload - p.payloadOffset

/-- `BlockPool::payload_of`. -/
def BlockPool.payloadOf (p : BlockPool) (header : ℕ) : ℕ :=
  header + p.payloadOffset

/-- `ThresholdPool` over a `BlockPool`. -/
structure ThresholdPool where
  threshold : Layout
  inner : BlockPool
  deriving DecidableEq, Repr

/-- `ThresholdPool::new`. -/
def ThresholdPool.new (threshold : Layout) : Option ThresholdPool :=
  (BlockPool.new threshold).map fun inner => ⟨threshold, inner⟩

/-- A pointer that a caller holds: the layout it was asked for with, and as history the
    header of its block, if it has one. -/
structure Held where
  layout : Layout
  header : Option ℕ
  deriving DecidableEq, Repr

/-- The lists hold headers. `blocks` are the blocks the pool has allocated, `held` is what
    callers hold, by address. `confused` is history: a pointer was returned to another
    allocator, or to the pool as another block. -/
structure State where
  lists : Lists ℕ
  allocWk : ℕ → ℕ
  blocks : ℕ → Bool
  held : ℕ → Option Held
  confused : Bool

/-- A request, and a pointer that is given back. -/
inductive Action where
  /-- `ThresholdPool::alloc`. Memory that is needed anew is at the address `fresh`. -/
  | alloc (wk : ℕ) (layout : Layout) (fresh : ℕ)
  /-- `ThresholdPool::dealloc`, with the layout of the allocation. -/
  | dealloc (wk : ℕ) (ptr : ℕ)
  deriving DecidableEq, Repr

namespace State

/-- `BlockPool::alloc_fresh`. -/
def allocFresh (s : State) (wk fresh : ℕ) : State :=
  { s with
    allocWk := Function.update s.allocWk fresh wk
    blocks := Function.update s.blocks fresh true }

/-- A pointer is returned to the caller. -/
def hold (s : State) (ptr : ℕ) (x : Held) : State :=
  { s with held := Function.update s.held ptr (some x) }

/-- `ThresholdPool::alloc`, with `BlockPool::alloc`: the pointer it returns. -/
def alloc (p : ThresholdPool) (s : State) (wk : ℕ) (layout : Layout) (fresh : ℕ) : ℕ × State :=
  if layout.size ≤ p.threshold.size ∧ layout.align ≤ p.threshold.align then
    match nodeTake s.lists wk with
    | (some header, lists) =>
        let ptr := p.inner.payloadOf header
        (ptr, { s with lists := lists }.hold ptr ⟨layout, some header⟩)
    | (none, lists) =>
        let ptr := p.inner.payloadOf fresh
        (ptr, ({ s with lists := lists }.allocFresh wk fresh).hold ptr ⟨layout, some fresh⟩)
  else (fresh, s.hold fresh ⟨layout, none⟩)

/-- `ThresholdPool::dealloc`, with `BlockPool::dealloc`. -/
def dealloc (p : ThresholdPool) (batch : ℕ) (s : State) (wk ptr : ℕ) (x : Held) : State :=
  if x.layout.size ≤ p.threshold.size ∧ x.layout.align ≤ p.threshold.align then
    let header := p.inner.headerOf ptr
    { s with
      lists := nodeGive batch s.lists (s.allocWk header) wk header
      held := Function.update s.held ptr none
      confused := s.confused || decide (x.header ≠ some header) }
  else
    { s with
      held := Function.update s.held ptr none
      confused := s.confused || x.header.isSome }

end State

/-- When an action is enabled. The global allocator returns memory of the layout it is
    asked for, and none that is in use. -/
def guard (p : ThresholdPool) (s : State) : Action → Prop
  | .alloc _ layout fresh =>
      Layout.Valid layout ∧ s.blocks fresh = false ∧ s.held fresh = none ∧
        (layout.Within p.threshold → p.inner.blockLayout.align ∣ fresh) ∧
        (¬ layout.Within p.threshold → layout.align ∣ fresh)
  | .dealloc _ ptr => (s.held ptr).isSome = true

/-- The state an action leads to. -/
def next (p : ThresholdPool) (batch : ℕ) (s : State) : Action → State
  | .alloc wk layout fresh => (s.alloc p wk layout fresh).2
  | .dealloc wk ptr =>
      match s.held ptr with
      | none => s
      | some x => s.dealloc p batch wk ptr x

/-- A new pool. -/
def start : State where
  lists := .empty
  allocWk _ := 0
  blocks _ := false
  held _ := none
  confused := false

/-- The pool and its callers as a guarded transition system. -/
def system (p : ThresholdPool) (batch : ℕ) : System State Action where
  init s := s = start
  guard := guard p
  next := next p batch

/-- The pointer is aligned for its request. From the pool, it is for a request within the
    threshold, header and payload are apart and inside the block, and the header is found
    again; from the global allocator, the request is beyond the threshold. -/
def Sound (p : ThresholdPool) (blocks : ℕ → Bool) (ptr : ℕ) (x : Held) : Prop :=
  x.layout.align ∣ ptr ∧
    match x.header with
    | some header =>
        x.layout.Within p.threshold ∧ blocks header = true ∧
          ptr = p.inner.payloadOf header ∧ p.inner.headerOf ptr = header ∧
          headerLayout.align ∣ header ∧ header + headerLayout.size ≤ ptr ∧
          ptr + x.layout.size ≤ header + p.inner.blockLayout.size
    | none => ¬ x.layout.Within p.threshold

/-- What `alloc` returns for a request: a pointer that the caller then holds for this layout, that
    is sound, and that is the payload of a block if the request is within the threshold and past
    the pool if it is not. -/
def Served (p : ThresholdPool) (layout : Layout) (r : ℕ × State) : Prop :=
  ∃ header : Option ℕ,
    r.2.held r.1 = some ⟨layout, header⟩ ∧ Sound p r.2.blocks r.1 ⟨layout, header⟩ ∧
      (header.isSome = true ↔ layout.Within p.threshold)

/-- What `dealloc` does with a pointer: it goes as it came, to the lists as the block it is the
    payload of, or past the pool, whose lists stay as they are. -/
def Returned (s t : State) (ptr : ℕ) (x : Held) : Prop :=
  t.held = Function.update s.held ptr none ∧ t.confused = false ∧
    match x.header with
    | some header => t.lists.Holds header
    | none => t.lists = s.lists

section

variable {p : ThresholdPool} {batch : ℕ} {s : State} {threshold layout : Layout}

/-- Of two powers of two the smaller divides the other. -/
theorem dvd_of_pow_le {a b : ℕ} (ha : ∃ k, a = 2 ^ k) (hb : ∃ k, b = 2 ^ k) (h : a ≤ b) :
    a ∣ b := by
  rcases ha with ⟨i, rfl⟩
  rcases hb with ⟨j, rfl⟩
  exact Nat.pow_dvd_pow 2 ((Nat.pow_le_pow_iff_right (by omega)).mp h)

theorem Layout.Valid.align_pos (h : Layout.Valid layout) : 0 < layout.align := by
  rcases h.1 with ⟨k, hk⟩
  rw [hk]
  exact Nat.two_pow_pos k

/-- What a block of the pool is like: both alignments divide its own, and the payload
    fits behind the header. -/
structure Fits (p : ThresholdPool) : Prop where
  header_align : headerLayout.align ∣ p.inner.blockLayout.align
  payload_align : p.threshold.align ∣ p.inner.blockLayout.align
  offset_align : p.threshold.align ∣ p.inner.payloadOffset
  behind : headerLayout.size ≤ p.inner.payloadOffset
  room : p.inner.payloadOffset + p.threshold.size ≤ p.inner.blockLayout.size

theorem new_spec (h : Layout.Valid threshold) (hnew : ThresholdPool.new threshold = some p) :
    p.threshold = threshold ∧ Fits p := by
  unfold ThresholdPool.new BlockPool.new Layout.extend at hnew
  simp only [Option.map_map] at hnew
  -- `Layout::extend` fails where the sizes of header and payload overflow together.
  split at hnew
  · next hsmall =>
      cases hnew
      have hpow : ∃ k, max headerLayout.align threshold.align = 2 ^ k := by
        rcases max_choice headerLayout.align threshold.align with hm | hm
        · exact ⟨3, hm⟩
        · rw [hm]
          exact h.1
      refine ⟨rfl, ?_, ?_, ?_, ?_, ?_⟩
      · exact dvd_of_pow_le ⟨3, rfl⟩ hpow (le_max_left _ _)
      · exact dvd_of_pow_le h.1 hpow (le_max_right _ _)
      · exact Nat.dvd_mul_left _ _
      · exact Align.le_up h.align_pos
      · have hpos : 0 < max headerLayout.align threshold.align :=
          lt_of_lt_of_le h.align_pos (le_max_right _ _)
        exact Align.le_up hpos
  · cases hnew

/-- The payload of a block is sound for every request within the threshold. -/
theorem sound_payload {blocks : ℕ → Bool} {header : ℕ} (hfits : Fits p)
    (hthr : Layout.Valid p.threshold) (hlayout : Layout.Valid layout)
    (hwithin : layout.Within p.threshold)
    (hblock : blocks header = true) (halign : p.inner.blockLayout.align ∣ header) :
    Sound p blocks (p.inner.payloadOf header) ⟨layout, some header⟩ := by
  have hbehind := hfits.behind
  have hroom := hfits.room
  have hsize := hwithin.1
  have hdvd : p.threshold.align ∣ p.inner.payloadOf header :=
    Nat.dvd_add (Nat.dvd_trans hfits.payload_align halign) hfits.offset_align
  have hless : layout.align ∣ p.threshold.align := dvd_of_pow_le hlayout.1 hthr.1 hwithin.2
  refine ⟨Nat.dvd_trans hless hdvd, hwithin, hblock, rfl, ?_, ?_, ?_, ?_⟩
  · exact Nat.add_sub_cancel _ _
  · exact Nat.dvd_trans hfits.header_align halign
  · change header + headerLayout.size ≤ header + p.inner.payloadOffset
    omega
  · change header + p.inner.payloadOffset + layout.size ≤ _
    omega

/-- What the lists hold are blocks of the pool, and what callers hold is sound. -/
structure Inv (p : ThresholdPool) (s : State) : Prop where
  listed : ∀ n, s.lists.Holds n → s.blocks n = true
  aligned : ∀ n, s.blocks n = true → p.inner.blockLayout.align ∣ n
  held : ∀ ptr x, s.held ptr = some x → Sound p s.blocks ptr x
  kept : s.confused = false

theorem Sound.mono {blocks blocks' : ℕ → Bool} {ptr : ℕ} {x : Held}
    (hsub : ∀ n, blocks n = true → blocks' n = true) (h : Sound p blocks ptr x) :
    Sound p blocks' ptr x := by
  rcases x with ⟨layout, _ | header⟩
  · exact h
  · rcases h with ⟨halign, hwithin, hblock, hrest⟩
    exact ⟨halign, hwithin, hsub header hblock, hrest⟩

theorem Inv.hold {ptr : ℕ} {x : Held} (h : Inv p s) (hx : Sound p s.blocks ptr x) :
    Inv p (s.hold ptr x) := by
  refine ⟨h.listed, h.aligned, fun q y hy => ?_, h.kept⟩
  change Function.update s.held ptr (some x) q = some y at hy
  by_cases hq : q = ptr
  · subst hq
    rw [Function.update_self] at hy
    cases hy
    exact hx
  · rw [Function.update_of_ne hq] at hy
    exact h.held q y hy

theorem Inv.setLists {lists : Lists ℕ} (h : Inv p s)
    (hl : ∀ n, lists.Holds n → s.blocks n = true) : Inv p { s with lists := lists } :=
  ⟨hl, h.aligned, h.held, h.kept⟩

theorem Inv.allocFresh (h : Inv p s) (wk : ℕ) {fresh : ℕ}
    (halign : p.inner.blockLayout.align ∣ fresh) : Inv p (s.allocFresh wk fresh) := by
  have hsub : ∀ n, s.blocks n = true → Function.update s.blocks fresh true n = true := by
    intro n hn
    by_cases hf : n = fresh
    · rw [hf, Function.update_self]
    · rw [Function.update_of_ne hf]
      exact hn
  refine ⟨fun n hn => hsub n (h.listed n hn), fun n hn => ?_,
    fun q y hy => (h.held q y hy).mono hsub, h.kept⟩
  by_cases hf : n = fresh
  · rw [hf]
    exact halign
  · change Function.update s.blocks fresh true n = true at hn
    rw [Function.update_of_ne hf] at hn
    exact h.aligned n hn

theorem Served.hold {ptr : ℕ} {header : Option ℕ}
    (hs : Sound p s.blocks ptr ⟨layout, header⟩)
    (hh : header.isSome = true ↔ layout.Within p.threshold) :
    Served p layout (ptr, s.hold ptr ⟨layout, header⟩) :=
  ⟨header, Function.update_self .., hs, hh⟩

/-- A request is served by a sound pointer, and what callers held before stays so. -/
theorem served_alloc {wk fresh : ℕ} (hfits : Fits p) (hthr : Layout.Valid p.threshold)
    (h : Inv p s) (hg : guard p s (.alloc wk layout fresh)) :
    Served p layout (s.alloc p wk layout fresh) ∧ Inv p (s.alloc p wk layout fresh).2 := by
  rcases hg with ⟨hlayout, -, -, hblock, hown⟩
  unfold State.alloc
  split
  · next hwithin =>
      have hpooled : ∀ {header : ℕ},
          (some header).isSome = true ↔ layout.Within p.threshold :=
        ⟨fun _ => hwithin, fun _ => rfl⟩
      rcases ht : nodeTake s.lists wk with ⟨_ | header, lists⟩
      · -- The lists were empty: a block is allocated, and is one of the pool's from now on.
        have hbase := (h.setLists fun n hn => h.listed n (holds_nodeTake ht hn)).allocFresh wk
          (hblock hwithin)
        have hnew : Function.update s.blocks fresh true fresh = true := Function.update_self ..
        have hsound := sound_payload hfits hthr hlayout hwithin hnew (hblock hwithin)
        exact ⟨.hold hsound hpooled, hbase.hold hsound⟩
      · -- A block of the lists: it was allocated before, at the alignment of the blocks.
        have hmem := h.listed header (holds_of_nodeTake ht)
        have hsound := sound_payload hfits hthr hlayout hwithin hmem (h.aligned header hmem)
        exact ⟨.hold hsound hpooled,
          (h.setLists fun n hn => h.listed n (holds_nodeTake ht hn)).hold hsound⟩
  · next hwithin =>
      have hsound : Sound p s.blocks fresh ⟨layout, none⟩ := ⟨hown hwithin, hwithin⟩
      exact ⟨.hold hsound ⟨nofun, fun hw => absurd hw hwithin⟩, h.hold hsound⟩

theorem inv_alloc {wk fresh : ℕ} (hfits : Fits p) (hthr : Layout.Valid p.threshold)
    (h : Inv p s) (hg : guard p s (.alloc wk layout fresh)) :
    Inv p (s.alloc p wk layout fresh).2 :=
  (served_alloc hfits hthr h hg).2

/-- The layout decides at the end as it did at the beginning, and the offset leads back to the
    header. -/
theorem returned_dealloc (batch wk : ℕ) {ptr : ℕ} {x : Held} (h : Inv p s)
    (hx : s.held ptr = some x) :
    Returned s (s.dealloc p batch wk ptr x) ptr x := by
  have hsound := h.held ptr x hx
  unfold State.dealloc
  rcases x with ⟨layout, _ | header⟩
  · have hwithin : ¬ layout.Within p.threshold := hsound.2
    unfold Layout.Within at hwithin
    rw [if_neg hwithin]
    exact ⟨rfl, by simp [h.kept], rfl⟩
  · rcases hsound with ⟨-, hwithin, -, -, hheader, -⟩
    unfold Layout.Within at hwithin
    rw [if_pos hwithin]
    refine ⟨rfl, by simp [h.kept, hheader], ?_⟩
    rw [hheader]
    exact holds_nodeGive_self

/-- A block of the pool that comes back is on the lists with those that were there. -/
theorem listed_dealloc {wk ptr n : ℕ} {x : Held} (h : Inv p s) (hx : s.held ptr = some x)
    (hn : (s.dealloc p batch wk ptr x).lists.Holds n) : s.blocks n = true := by
  have hsound := h.held ptr x hx
  unfold State.dealloc at hn
  rcases x with ⟨layout, _ | header⟩
  · have hwithin : ¬ layout.Within p.threshold := hsound.2
    unfold Layout.Within at hwithin
    rw [if_neg hwithin] at hn
    exact h.listed n hn
  · rcases hsound with ⟨-, hwithin, hblock, -, hheader, -⟩
    unfold Layout.Within at hwithin
    rw [if_pos hwithin] at hn
    rcases holds_nodeGive hn with hn | hn
    · rw [hn, hheader]
      exact hblock
    · exact h.listed n hn

theorem blocks_dealloc {wk ptr : ℕ} {x : Held} :
    (s.dealloc p batch wk ptr x).blocks = s.blocks := by
  unfold State.dealloc
  split <;> rfl

/-- A pointer that has gone back leaves the others as they were. -/
theorem inv_dealloc {wk ptr : ℕ} {x : Held} (h : Inv p s) (hx : s.held ptr = some x) :
    Inv p (s.dealloc p batch wk ptr x) := by
  rcases returned_dealloc batch wk h hx with ⟨hheld, hkept, -⟩
  refine ⟨fun n hn => ?_, fun n hn => ?_, fun q y hy => ?_, hkept⟩
  · rw [blocks_dealloc]
    exact listed_dealloc h hx hn
  · rw [blocks_dealloc] at hn
    exact h.aligned n hn
  · rw [hheld] at hy
    rw [blocks_dealloc]
    by_cases hq : q = ptr
    · rw [hq, Function.update_self] at hy
      cases hy
    · rw [Function.update_of_ne hq] at hy
      exact h.held q y hy

theorem inv_next {a : Action} (hfits : Fits p) (hthr : Layout.Valid p.threshold) (h : Inv p s)
    (hg : guard p s a) : Inv p (next p batch s a) := by
  cases a with
  | alloc wk layout fresh => exact inv_alloc hfits hthr h hg
  | dealloc wk ptr =>
      rcases Option.isSome_iff_exists.mp hg with ⟨x, hx⟩
      simp only [next, hx]
      exact inv_dealloc h hx

theorem inv_start : Inv p start where
  listed n hn := absurd hn (not_holds_empty n)
  aligned _ hn := by cases hn
  held _ _ hx := by cases hx
  kept := rfl

/-- For every threshold, in every state that callers can bring the pool to: each request is served
    by a pointer that is aligned for it, one from the pool having its header and its payload apart
    and inside one block, and leading back to that header; all pointers that callers hold are so;
    and each of them goes back to the allocator it came from, as the block that it was. -/
theorem payload_sound (hthr : Layout.Valid threshold)
    (hnew : ThresholdPool.new threshold = some p) (hr : (system p batch).Reachable s) :
    (∀ wk layout fresh, guard p s (.alloc wk layout fresh) →
        Served p layout (s.alloc p wk layout fresh)) ∧
      (∀ ptr x, s.held ptr = some x → Sound p s.blocks ptr x) ∧
      (∀ wk ptr x, s.held ptr = some x →
        Returned s (s.dealloc p batch wk ptr x) ptr x) ∧
      s.confused = false := by
  rcases new_spec hthr hnew with ⟨rfl, hfits⟩
  have hinv : Inv p s := by
    refine hr.induct (P := Inv p) ?_ fun s a h hg => inv_next hfits hthr h hg
    rintro s rfl
    exact inv_start
  exact ⟨fun _ _ _ hg => (served_alloc hfits hthr hinv hg).1, hinv.held,
    fun _ _ _ hx => returned_dealloc _ _ hinv hx, hinv.kept⟩

end

/-- A threshold of 256 bytes, aligned to 64: the payload begins 64 bytes into the block. -/
def cacheLines : ThresholdPool :=
  ⟨⟨256, 64⟩, ⟨⟨320, 64⟩, 64⟩⟩

/-- A block is allocated, returned and handed out again, at the same address and for another
    layout; then a request of one byte too many gets memory of its own. -/
def reuseRun : List Action :=
  [.alloc 0 ⟨100, 8⟩ 4096, .dealloc 0 4160, .alloc 0 ⟨64, 64⟩ 8192, .alloc 0 ⟨257, 1⟩ 12345]

theorem payload_sound_reused :
    let s := (system cacheLines 16).run start reuseRun
    (∀ ptr x, s.held ptr = some x → Sound cacheLines s.blocks ptr x) ∧ s.confused = false ∧
      s.held 4160 = some ⟨⟨64, 64⟩, some 4096⟩ ∧ s.held 12345 = some ⟨⟨257, 1⟩, none⟩ ∧
      s.blocks 8192 = false ∧
      Returned s (s.dealloc cacheLines 16 1 4160 ⟨⟨64, 64⟩, some 4096⟩) 4160
        ⟨⟨64, 64⟩, some 4096⟩ := by
  have hthr : Layout.Valid ⟨256, 64⟩ := ⟨⟨6, rfl⟩, by decide⟩
  have hnew : ThresholdPool.new ⟨256, 64⟩ = some cacheLines := by decide +kernel
  have hsmall : Layout.Within ⟨100, 8⟩ cacheLines.threshold ∧
      Layout.Within ⟨64, 64⟩ cacheLines.threshold := by decide
  -- The run frees a block and is given it again.
  have hlegal : (system cacheLines 16).Legal start reuseRun := by
    refine ⟨⟨⟨⟨3, rfl⟩, by decide⟩, rfl, rfl, fun _ => ⟨64, rfl⟩, fun h => absurd hsmall.1 h⟩, rfl,
      ⟨⟨⟨6, rfl⟩, by decide⟩, rfl, rfl, fun _ => ⟨128, rfl⟩, fun h => absurd hsmall.2 h⟩,
      ⟨⟨⟨0, rfl⟩, by decide⟩, rfl, rfl, fun h => ?_, fun _ => ⟨12345, rfl⟩⟩, trivial⟩
    exact absurd h.1 (by decide)
  rcases payload_sound hthr hnew ((system cacheLines 16).reachable_run _ start rfl hlegal) with
    ⟨-, hsound, hback, hkept⟩
  exact ⟨hsound, hkept, rfl, rfl, rfl, hback 1 4160 _ rfl⟩

end Blocks

end Pool

end Cmpth

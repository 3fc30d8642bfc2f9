import Cmpth.Core.System
import Cmpth.Pool.FreeList

/-!
# Recursion Frames

`recurse`, the frames it makes, and where their memory goes when they are
dropped.

A frame is made at a place: on a worker of some scheduler instance of the
system, or on a thread that is no worker of the system at all. A worker serves
a request within the threshold from the pool of its instance and a bigger one
from the global allocator, and off every worker the global allocator serves
all. The drop decides again in the same way, by the place it happens at. The
frame may have moved in between, being `Send`, and nothing in it says where its
memory came from.

A block is an allocation, not an address: an address that is freed and
allocated again makes a new one. The operations on the lists of one pool are
taken as single steps, because only what the lists hold matters here.

## Main definitions

* `Place`, `Source`: Where a frame is made or dropped, and who serves it there.
* `State`, `Action`, `system`: The frames and pools of a system.
* `Agree`: Two places are served by the same allocator.

## Theorems

* `agree_iff`: `Agree` says so.
* `came_obtain`: A fresh block is none of those accounted for.
* `Inv.obtain`, `inv_recurse`, `inv_next`, `inv_init`: What is in a pool came from its slots.
* `Inv.setPool`: Lists that hold no more than blocks of their pool may replace the old.
* `inv_alloc`: The memory of a new frame comes from the allocator that serves its place.
* `next_drop`, `dealloc_came`: What a drop does.
* `inv_dealloc`: A pool that gets back what came from it holds nothing else.
* `inv_drop`: A drop at a place that agrees returns the block to where it came from.
* `misplaced_of_not_agree`: A drop elsewhere misplaces the block at once.
* `frames_return`: The frames go back to where they came from exactly when each is dropped at a
  place that agrees with the one it was made at.
* `frames_return_moved`: A frame that is dropped on another worker of its instance.
* `foreign_frame_enters_pool`: A frame made off every worker may enter a pool.
-/

namespace Cmpth

namespace Pool

/-- `std::alloc::Layout`. -/
structure Layout where
  size : Nat
  align : Nat
  deriving DecidableEq, Repr

/-- The request is for the pool. -/
def Layout.Within (layout threshold : Layout) : Prop :=
  layout.size ≤ threshold.size ∧ layout.align ≤ threshold.align

instance (layout threshold : Layout) : Decidable (layout.Within threshold) :=
  inferInstanceAs (Decidable (_ ∧ _))

/-- What `S::Worker::current()` tells. -/
inductive Place (I : Type*) where
  | off
  | worker (i : I) (wk : Nat)
  deriving DecidableEq, Repr

/-- An allocator, and for the global one the layout it is asked for. -/
inductive Source (I : Type*) where
  | pool (i : I)
  | global (layout : Layout)
  deriving DecidableEq, Repr

/-- A `RecursionFrame`. `made` is bookkeeping: the frame does not store it. -/
structure Frame (B I : Type*) where
  ptr : B
  layout : Layout
  made : Place I

/-- The pools and frames of a system. `came` is bookkeeping: which allocator a
    block came from. `misplaced` says that a block has been returned to
    another. -/
structure State (B I F : Type*) where
  pools : I → Lists B
  allocWk : B → Nat
  frames : F → Option (Frame B I)
  came : B → Option (Source I)
  misplaced : Bool

/-- A frame is made or dropped. -/
inductive Action (B I F : Type*) where
  /-- `recurse`. Memory that is not in a pool yet is the block `fresh`. -/
  | recurse (f : F) (place : Place I) (layout : Layout) (fresh : B)
  /-- `RecursionFrame::drop`. -/
  | drop (f : F) (place : Place I)
  deriving DecidableEq, Repr

variable {B I F : Type*}

/-- The allocator that serves a request at a place: `recurse` or the drop, and
    `ThresholdPool` for a worker. -/
def Place.source (threshold layout : Layout) : Place I → Source I
  | .off => .global layout
  | .worker i _ => if layout.Within threshold then .pool i else .global layout

/-- Two places are served by the same allocator. -/
def Agree (threshold layout : Layout) : Place I → Place I → Prop
  | .off, .off => True
  | .off, .worker _ _ | .worker _ _, .off => ¬ layout.Within threshold
  | .worker i _, .worker j _ => i = j ∨ ¬ layout.Within threshold

theorem agree_iff {threshold layout : Layout} {p q : Place I} :
    Agree threshold layout p q ↔ p.source threshold layout = q.source threshold layout := by
  by_cases h : layout.Within threshold <;> cases p <;> cases q <;>
    simp [Agree, Place.source, h]

variable [DecidableEq B] [DecidableEq I] [DecidableEq F] (threshold : Layout) (batch : Nat)

/-- A block that has just been allocated. -/
def State.obtain (s : State B I F) (b : B) (src : Source I) : State B I F :=
  { s with came := Function.update s.came b (some src) }

/-- The memory of a new frame. -/
def alloc (s : State B I F) (place : Place I) (layout : Layout) (fresh : B) :
    B × State B I F :=
  match place with
  | .off => (fresh, s.obtain fresh (.global layout))
  | .worker i wk =>
      if layout.Within threshold then
        match nodeTake (s.pools i) wk with
        | (some b, l) => (b, { s with pools := Function.update s.pools i l })
        | (none, l) =>
            (fresh,
              { s.obtain fresh (.pool i) with
                pools := Function.update s.pools i l
                allocWk := Function.update s.allocWk fresh wk })
      else (fresh, s.obtain fresh (.global layout))

/-- The memory of a dropped frame. -/
def dealloc (s : State B I F) (place : Place I) (layout : Layout) (ptr : B) : State B I F :=
  match place with
  | .off => s
  | .worker i wk =>
      if layout.Within threshold then
        { s with
          pools := Function.update s.pools i
            (nodeGive batch (s.pools i) (s.allocWk ptr) wk ptr) }
      else s

/-- When an action can be taken. -/
def guard (s : State B I F) : Action B I F → Prop
  | .recurse f _ _ fresh => (s.frames f).isNone = true ∧ s.came fresh = none
  | .drop f _ => (s.frames f).isSome = true

/-- What an action does. -/
def next (s : State B I F) : Action B I F → State B I F
  | .recurse f place layout fresh =>
      let (ptr, s') := alloc threshold s place layout fresh
      { s' with frames := Function.update s.frames f (some ⟨ptr, layout, place⟩) }
  | .drop f place =>
      match s.frames f with
      | none => s
      | some fr =>
          { dealloc threshold batch s place fr.layout fr.ptr with
            frames := Function.update s.frames f none
            misplaced := s.misplaced ||
              decide (s.came fr.ptr ≠ some (place.source threshold fr.layout)) }

/-- No frames, and nothing in the pools. -/
def init (s : State B I F) : Prop :=
  (∀ i, s.pools i = .empty) ∧ (∀ b, s.came b = none) ∧ (∀ f, s.frames f = none) ∧
    s.misplaced = false

/-- Recursion frames as a guarded transition system. -/
def system : System (State B I F) (Action B I F) where
  init := init
  guard := guard
  next := next threshold batch

instance (s : State B I F) : ∀ a : Action B I F, Decidable (guard s a)
  | .recurse .. => inferInstanceAs (Decidable (_ ∧ _))
  | .drop .. => inferInstanceAs (Decidable (_ = _))

instance decidableSystemGuard (s : State B I F) (a : Action B I F) :
    Decidable ((system (B := B) (I := I) (F := F) threshold batch).guard s a) :=
  inferInstanceAs (Decidable (guard s a))

/-- The frame is dropped at a place that agrees with the one it was made at. -/
def DropsHome (s : State B I F) : Action B I F → Prop
  | .recurse .. => True
  | .drop f place => ∀ fr, s.frames f = some fr → Agree threshold fr.layout fr.made place

/-- What the lists of a pool hold came from it, and what a frame holds came from
    the allocator that served its making. -/
structure Inv (s : State B I F) : Prop where
  pools : ∀ i b, (s.pools i).Holds b → s.came b = some (.pool i)
  frames : ∀ f fr, s.frames f = some fr →
    s.came fr.ptr = some (fr.made.source threshold fr.layout)
  home : s.misplaced = false

variable {threshold batch} {s : State B I F}

omit [DecidableEq I] [DecidableEq F] in
/-- A fresh block is none of those accounted for. -/
theorem came_obtain {b fresh : B} {src src' : Source I} (hf : s.came fresh = none)
    (hb : s.came b = some src) : (s.obtain fresh src').came b = some src := by
  have hne : b ≠ fresh := fun h => by rw [h, hf] at hb; cases hb
  show Function.update s.came fresh (some src') b = some src
  rw [Function.update_of_ne hne, hb]

omit [DecidableEq I] [DecidableEq F] in
theorem Inv.obtain (h : Inv threshold s) {fresh : B} (hf : s.came fresh = none) {src : Source I} :
    Inv threshold (s.obtain fresh src) :=
  ⟨fun i b hb => came_obtain hf (h.pools i b hb),
    fun f fr hfr => came_obtain hf (h.frames f fr hfr), h.home⟩

omit [DecidableEq B] [DecidableEq F] in
/-- Lists that hold no more than blocks of their pool may replace the old. -/
theorem Inv.setPool (h : Inv threshold s) {i : I} {l : Lists B} {wk : B → Nat}
    (hl : ∀ b, l.Holds b → s.came b = some (.pool i)) :
    Inv threshold { s with pools := Function.update s.pools i l, allocWk := wk } := by
  refine ⟨fun j b hb => ?_, h.frames, h.home⟩
  by_cases hj : j = i
  · subst hj
    simp only [Function.update_self] at hb
    exact hl b hb
  · simp only [Function.update_of_ne hj] at hb
    exact h.pools j b hb

omit [DecidableEq F] in
/-- The memory of a new frame comes from the allocator that serves its place. -/
theorem inv_alloc (h : Inv threshold s) (place : Place I) (layout : Layout) {fresh : B}
    (hf : s.came fresh = none) :
    Inv threshold (alloc threshold s place layout fresh).2 ∧
      (alloc threshold s place layout fresh).2.came (alloc threshold s place layout fresh).1 =
        some (place.source threshold layout) ∧
      (alloc threshold s place layout fresh).2.frames = s.frames := by
  have hnew : ∀ src : Source I, (s.obtain fresh src).came fresh = some src := by
    intro src
    show Function.update s.came fresh (some src) fresh = some src
    rw [Function.update_self]
  cases place with
  | off => exact ⟨h.obtain hf, hnew _, rfl⟩
  | worker i wk =>
      unfold alloc Place.source
      by_cases hw : layout.Within threshold
      · simp only [if_pos hw]
        rcases ht : nodeTake (s.pools i) wk with ⟨_ | b, l⟩
        · -- The lists were empty: a block is allocated for this pool.
          refine ⟨(h.obtain hf).setPool (fun b hb => ?_), hnew _, rfl⟩
          exact came_obtain hf (h.pools i b (holds_nodeTake ht hb))
        · refine ⟨h.setPool (fun b hb => h.pools i b (holds_nodeTake ht hb)), ?_, rfl⟩
          exact h.pools i b (holds_of_nodeTake ht)
      · simp only [if_neg hw]
        exact ⟨h.obtain hf, hnew _, rfl⟩

theorem inv_recurse (h : Inv threshold s) {f : F} {place : Place I} {layout : Layout} {fresh : B}
    (hf : s.came fresh = none) :
    Inv threshold (next threshold batch s (.recurse f place layout fresh)) := by
  rcases inv_alloc h place layout hf with ⟨ha, hcame, hframes⟩
  refine ⟨ha.pools, fun g fr hg => ?_, ha.home⟩
  simp only [next] at hg
  by_cases hgf : g = f
  · rw [hgf, Function.update_self] at hg
    cases hg
    exact hcame
  · rw [Function.update_of_ne hgf, ← hframes] at hg
    exact ha.frames g fr hg

theorem next_drop (s : State B I F) (f : F) (place : Place I) {fr : Frame B I}
    (hfr : s.frames f = some fr) :
    next threshold batch s (.drop f place) =
      { dealloc threshold batch s place fr.layout fr.ptr with
        frames := Function.update s.frames f none
        misplaced := s.misplaced ||
          decide (s.came fr.ptr ≠ some (place.source threshold fr.layout)) } := by
  simp only [next, hfr]

omit [DecidableEq B] [DecidableEq F] in
/-- A pool that gets back what came from it holds nothing else. -/
theorem inv_dealloc (h : Inv threshold s) {place : Place I} {layout : Layout} {ptr : B}
    (hp : s.came ptr = some (place.source threshold layout)) :
    Inv threshold (dealloc threshold batch s place layout ptr) := by
  cases place with
  | off => exact h
  | worker i wk =>
      simp only [dealloc]
      split
      · next hw =>
          rw [Place.source, if_pos hw] at hp
          refine h.setPool (fun b hb => ?_)
          rcases holds_nodeGive hb with rfl | hb
          · exact hp
          · exact h.pools i b hb
      · exact h

omit [DecidableEq B] [DecidableEq F] in
theorem dealloc_came (s : State B I F) (place : Place I) (layout : Layout) (ptr : B) :
    (dealloc threshold batch s place layout ptr).came = s.came := by
  cases place with
  | off => rfl
  | worker i wk =>
      simp only [dealloc]
      split <;> rfl

/-- A drop at a place that agrees returns the block to where it came from. -/
theorem inv_drop (h : Inv threshold s) {f : F} {place : Place I}
    (hg : guard s (.drop f place)) (hc : DropsHome threshold s (.drop f place)) :
    Inv threshold (next threshold batch s (.drop f place)) := by
  rcases Option.isSome_iff_exists.mp hg with ⟨fr, hfr⟩
  have hp : s.came fr.ptr = some (place.source threshold fr.layout) := by
    rw [h.frames f fr hfr, agree_iff.mp (hc fr hfr)]
  have hd : Inv threshold (dealloc threshold batch s place fr.layout fr.ptr) := inv_dealloc h hp
  have hcame : (dealloc threshold batch s place fr.layout fr.ptr).came = s.came :=
    dealloc_came s place fr.layout fr.ptr
  rw [next_drop s f place hfr]
  refine ⟨hd.pools, fun g fr' hg' => ?_, ?_⟩
  · have hgf : g ≠ f := fun he => by
      simp only [he, Function.update_self] at hg'
      cases hg'
    simp only [Function.update_of_ne hgf] at hg'
    rw [hcame]
    exact h.frames g fr' hg'
  · simp [h.home, hp]

/-- A drop elsewhere misplaces the block at once. -/
theorem misplaced_of_not_agree (h : Inv threshold s) {a : Action B I F} (hg : guard s a)
    (hc : ¬ DropsHome threshold s a) : (next threshold batch s a).misplaced = true := by
  cases a with
  | recurse f place layout fresh => exact absurd trivial hc
  | drop f place =>
      rcases Option.isSome_iff_exists.mp hg with ⟨fr, hfr⟩
      have hne : s.came fr.ptr ≠ some (place.source threshold fr.layout) := by
        intro he
        rw [h.frames f fr hfr, Option.some.injEq] at he
        refine hc (fun fr' hfr' => ?_)
        rw [hfr, Option.some.injEq] at hfr'
        rw [← hfr']
        exact agree_iff.mpr he
      rw [next_drop s f place hfr]
      simp [hne]

omit [DecidableEq B] [DecidableEq I] [DecidableEq F] in
theorem inv_init (h : init s) : Inv threshold s := by
  rcases h with ⟨hp, -, hf, hm⟩
  refine ⟨fun i b hb => ?_, fun f fr hfr => ?_, hm⟩
  · rw [hp i] at hb
    exact absurd hb (not_holds_empty b)
  · rw [hf f] at hfr
    cases hfr

theorem inv_next {a : Action B I F} (h : Inv threshold s) (hg : guard s a)
    (hc : DropsHome threshold s a) : Inv threshold (next threshold batch s a) := by
  cases a with
  | recurse f place layout fresh => exact inv_recurse h hg.2
  | drop f place => exact inv_drop h hg hc

/-- Every block goes back to the allocator it came from, as long as the frames
    are dropped at places that agree with where they were made, and no
    longer. -/
theorem frames_return {s : State B I F} {as : List (Action B I F)} (hi : init s)
    (hl : (system threshold batch).Legal s as) :
    (system threshold batch).Throughout (fun s => s.misplaced = false) s as ↔
      (system threshold batch).Along (DropsHome threshold) s as :=
  (system threshold batch).throughout_iff_along (I := Inv threshold) (fun _ h => h.home)
    (fun _ _ h hg hc => inv_next h hg hc)
    (fun _ _ h hg hc => ne_false_of_eq_true (misplaced_of_not_agree h hg hc)) as s (inv_init hi) hl

/-- Two instances, no frames. -/
def start : State Nat Bool Unit where
  pools := fun _ => .empty
  allocWk := fun _ => 0
  frames := fun _ => none
  came := fun _ => none
  misplaced := false

theorem init_start : init start :=
  ⟨fun _ => rfl, fun _ => rfl, fun _ => rfl, rfl⟩

/-- A frame that moves from one worker of an instance to another. -/
def movedRun : List (Action Nat Bool Unit) :=
  [.recurse () (.worker true 0) ⟨64, 8⟩ 1, .drop () (.worker true 1)]

theorem frames_return_moved :
    (system ⟨128, 16⟩ 16).Throughout (fun s => s.misplaced = false) start movedRun := by
  refine (frames_return init_start (by decide)).mpr ⟨trivial, fun fr hfr => ?_, trivial⟩
  cases hfr
  exact .inl rfl

/-- A frame made off every worker and dropped on one. -/
def foreignRun : List (Action Nat Bool Unit) :=
  [.recurse () .off ⟨64, 8⟩ 1, .drop () (.worker true 0)]

/-- The pool gets a block of the global allocator. -/
theorem foreign_frame_enters_pool :
    ¬ ∀ (s : State Nat Bool Unit) (as : List (Action Nat Bool Unit)), init s →
      (system ⟨128, 16⟩ 16).Legal s as →
      (system ⟨128, 16⟩ 16).Throughout (fun s => s.misplaced = false) s as := by
  intro h
  have hq := h start foreignRun init_start (by decide)
  exact absurd (System.throughout_run _ _ _ hq) (by decide)

end Pool

end Cmpth

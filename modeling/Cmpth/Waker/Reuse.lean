import Mathlib.Tactic.Common
import Cmpth.Waker.Ownership

/-!
# Late Wakes

Wakers that outlive their task. A waker is the bare address of a descriptor,
and nothing counts them, so after the task has finished they point at a pooled
descriptor, at the descriptor of a later task, or at memory that was given
back to the allocator.

The first two are harmless: a free descriptor's word is never `PARKED`, and
what a claim finds is always a parked task. The third is not. `free_desc`
gives back oversized descriptors, and every descriptor whose handle takes the
result away from a worker, and the wakers and the completing poll's own waker
read the word all the same. `late_wakes` has both halves: runs that give a
descriptor back only when no waker of it is left are harmless, and any other
such step leaves a state from which a waker goes on to read freed memory.

## Main definitions

* `Action.touches`: Whether a waker operation accesses the descriptor.
* `Late`: The protocol with memory that comes and goes.
* `Harmless`: What late wakes may do.
* `NoWakerLeft`: A descriptor is given back only when no waker of it is left.

## Theorems

* `Inv.alone`: Where the descriptor is, it is nowhere else.
* `LateInv.harmless`, `safe_init`: The invariant, and what it gives.
* `eq_reuse_of_guard`: While nothing points at the descriptor and it is free, only its reuse is
  enabled.
* `safe_next`: Under the condition each step keeps freed memory unreferenced.
* `Late.inv_reachable`: What the wakers leave of the core protocol does not depend on the memory.
* `touch_of_waker`: A waker that is left can read freed memory.
* `not_throughout_of_touched`: Freed memory that was read stays read.
* `late_wakes`: Which runs are harmless.
* `late_wakes_wakeNextTask`: A late wake that wakes the next task.
* `late_wake_reads_freed`: A clone kept by a timer reads a freed descriptor.
-/

namespace Cmpth

namespace Waker

variable {F K Q : Type*}

/-- The operations of a wake, of a clone and of a waker's drop that access the
    descriptor. `drop_shared` does not. -/
def Action.touches : Action F K Q → Bool
  | .dropWaker _ | .shareLoad _ | .shareExchange _ | .wakeLoad _ | .wakeExchange _
  | .push _ _ => true
  | _ => false

/-- The protocol, whether the descriptor's memory is allocated, and whether a
    waker operation has accessed it while it was not. -/
structure Late (F K Q : Type*) where
  core : State F K Q
  mapped : Bool
  touched : Bool

/-- The actions of the protocol, and what the allocator does with the memory. -/
inductive LateAction (F K Q : Type*) where
  | core (a : Action F K Q)
  /-- `free_desc`: an oversized descriptor, or no worker to take it. -/
  | dealloc
  /-- The allocator hands the memory out for a new descriptor. -/
  | alloc

namespace Late

variable [DecidableEq F] [DecidableEq K] [DecidableEq Q]

/-- A descriptor is given back by whoever finished with it, instead of to the
    pool, and only a pooled one is there to be reused. -/
def guard (s : Late F K Q) : LateAction F K Q → Prop
  | .core a => Waker.guard s.core a ∧ (a = .reuse → s.mapped = true)
  | .dealloc => s.core.life = .finished ∨ s.core.life = .branch
  | .alloc => s.core.life = .free ∧ s.mapped = false

/-- Freed memory keeps its last contents here, so that a late operation has
    some outcome. It counts as touched from then on. -/
def next (s : Late F K Q) : LateAction F K Q → Late F K Q
  | .core a =>
      { s with
        core := Waker.next s.core a
        touched := s.touched || (!s.mapped && a.touches) }
  | .dealloc => { s with core := { s.core with life := .free }, mapped := false }
  | .alloc => { s with core := Waker.next s.core .reuse, mapped := true }

/-- Memory that is mapped, with a new descriptor in it. -/
def init (s : Late F K Q) : Prop :=
  Waker.init s.core ∧ s.mapped = true ∧ s.touched = false

/-- The protocol with freed descriptors as a guarded transition system. -/
def system : System (Late F K Q) (LateAction F K Q) where
  init := init
  guard := guard
  next := next

instance (s : Late F K Q) : ∀ a : LateAction F K Q, Decidable (guard s a)
  | .core _ | .alloc => inferInstanceAs (Decidable (_ ∧ _))
  | .dealloc => inferInstanceAs (Decidable (_ ∨ _))

instance decidableSystemGuard (s : Late F K Q) (a : LateAction F K Q) :
    Decidable ((system (F := F) (K := K) (Q := Q)).guard s a) :=
  inferInstanceAs (Decidable (guard s a))

end Late

/-- What late wakes may do: no wake or waker drop accesses freed memory, a
    push is of a descriptor that is neither queued nor polled nor free, and
    what a wake can claim is a running task parked in its word. -/
structure Harmless (s : Late F K Q) : Prop where
  untouched : s.touched = false
  push : ∀ k, s.core.waker k = .claimed →
    (∀ q, s.core.queue q = 0) ∧ (∀ f, (s.core.frame f).owns = false) ∧
      s.core.life = .running ∧ s.mapped = true
  claim : decode s.core.word = .parked →
    (∀ q, s.core.queue q = 0) ∧ (∀ f, (s.core.frame f).owns = false) ∧
      s.core.life = .running ∧ s.mapped = true

/-- A descriptor is given back only when no clone of its waker is left and the
    pass that completed it has dropped its own. -/
def NoWakerLeft (s : Late F K Q) : LateAction F K Q → Prop
  | .dealloc => (∀ k, s.core.waker k = .none) ∧ ∀ f, s.core.frame f ≠ .dropping .ready
  | _ => True

/-- Freed memory is referenced by nothing. -/
structure LateInv (s : Late F K Q) : Prop where
  core : ∃ p, Inv s.core p
  untouched : s.touched = false
  unmapped : s.mapped = false → s.core.life = .free ∧ (∀ k, s.core.waker k = .none) ∧
    ∀ f, s.core.frame f ≠ .dropping .ready

theorem Inv.alone {s : State F K Q} {p : Place F K Q} (h : Inv s p)
    (hq : ∀ q, p ≠ .queue q) (hf : ∀ f, p ≠ .frame f) :
    (∀ q, s.queue q = 0) ∧ ∀ f, (s.frame f).owns = false := by
  refine ⟨fun q => (h.queue q).2 (hq q), fun f => ?_⟩
  by_contra howns
  rw [Bool.not_eq_false] at howns
  exact hf f ((h.frame f).mp howns)

theorem LateInv.harmless {s : Late F K Q} (h : LateInv s) : Harmless s := by
  obtain ⟨p, hp⟩ := h.core
  have mapped : s.core.life = .running → s.mapped = true := by
    intro hl
    by_contra hm
    rw [Bool.not_eq_true] at hm
    rw [(h.unmapped hm).1] at hl
    exact nomatch hl
  refine ⟨h.untouched, fun k hk => ?_, fun hw => ?_⟩
  · obtain rfl := (hp.waker k).mp hk
    have hal := hp.alone (fun q hne => nomatch hne) (fun f hne => nomatch hne)
    exact ⟨hal.1, hal.2, hp.life, mapped hp.life⟩
  · obtain rfl := hp.parked.mp hw
    have hal := hp.alone (fun q hne => nomatch hne) (fun f hne => nomatch hne)
    exact ⟨hal.1, hal.2, hp.life, mapped hp.life⟩

/-- While nothing points at the descriptor and it is free, only its reuse is
    enabled. -/
theorem eq_reuse_of_guard {s : State F K Q} {p : Place F K Q} (h : Inv s p) (hl : s.life = .free)
    (hk : ∀ k, s.waker k = .none) (hf : ∀ f, s.frame f ≠ .dropping .ready)
    (a : Action F K Q) (hg : guard s a) : a = .reuse := by
  have hp := Place.life_free (h.life.symm.trans hl)
  obtain ⟨hq, howns⟩ := h.alone (fun q hne => by simp [hp] at hne)
    (fun f hne => by simp [hp] at hne)
  -- No frame has it, and none is about to drop a waker after a last poll.
  have idle : ∀ f, s.frame f = .none := by
    intro f
    have hfo := howns f
    have hfr := hf f
    cases hpc : s.frame f with
    | none => rfl
    | dropping r =>
        cases r with
        | ready => exact absurd hpc hfr
        | pending => simp [hpc, FramePc.owns] at hfo
    | _ => simp [hpc, FramePc.owns] at hfo
  cases a with
  | reuse => rfl
  | spawn q => simp [guard, hl] at hg
  | reclaim => simp [guard, hl] at hg
  | freeBranch => simp [guard, hl] at hg
  | dispatch f q => simp [guard, hq] at hg
  | popBack q => simp [guard, hq] at hg
  | _ => simp [guard, idle, hk] at hg

theorem safe_init {s : Late F K Q} (h : Late.init s) : LateInv s := by
  obtain ⟨hi, hm, ht⟩ := h
  exact ⟨⟨.spawner, inv_init hi⟩, ht, fun hu => absurd (hm.symm.trans hu) (by decide)⟩

variable [DecidableEq F] [DecidableEq K] [DecidableEq Q]

/-- Under the condition each step keeps freed memory unreferenced. -/
theorem safe_next {s : Late F K Q} (h : LateInv s) (a : LateAction F K Q) (hg : Late.guard s a)
    (hc : NoWakerLeft s a) : LateInv (Late.next s a) := by
  obtain ⟨p, hp⟩ := h.core
  -- The tasks' own steps keep the core; the allocator's two touch only memory that is free.
  cases a with
  | core a =>
      obtain ⟨hga, hre⟩ := hg
      have hmapped : s.mapped = true := by
        by_contra hm
        rw [Bool.not_eq_true] at hm
        obtain ⟨hl, hk, hf⟩ := h.unmapped hm
        have ha := eq_reuse_of_guard hp hl hk hf a hga
        rw [hre ha] at hm
        exact Bool.false_ne_true hm.symm
      refine ⟨inv_next hp a hga, ?_, ?_⟩
      · simp [Late.next, h.untouched, hmapped]
      · intro hm
        simp [Late.next, hmapped] at hm
  | dealloc =>
      refine ⟨⟨.free, ?_⟩, h.untouched, fun _ => ⟨rfl, hc⟩⟩
      rcases hg with hl | hl
      · exact inv_reclaim hp hl
      · exact inv_freeBranch hp hl
  | alloc =>
      refine ⟨⟨.spawner, inv_reuse hp hg.1⟩, h.untouched, fun hm => ?_⟩
      simp [Late.next] at hm

/-- What the wakers leave of the core protocol does not depend on the memory. -/
theorem Late.inv_reachable {s : Late F K Q} (hr : Late.system.Reachable s) :
    ∃ p, Inv s.core p := by
  refine hr.induct (P := fun s => ∃ p, Inv s.core p) ?_ ?_
  · exact fun s hi => ⟨.spawner, inv_init hi.1⟩
  · rintro s a ⟨p, hp⟩ hg
    cases a with
    | core a => exact inv_next hp a hg.1
    | alloc => exact ⟨.spawner, inv_reuse hp hg.1⟩
    | dealloc =>
        refine ⟨.free, ?_⟩
        rcases hg with hl | hl
        · exact inv_reclaim hp hl
        · exact inv_freeBranch hp hl

/-- One more operation of a waker that is left reads freed memory. -/
theorem touch_of_waker {s : Late F K Q} {p : Place F K Q} (h : Inv s.core p)
    (hl : s.core.life = .free) (hm : s.mapped = false)
    (hw : (∃ k, s.core.waker k ≠ .none) ∨ ∃ f, s.core.frame f = .dropping .ready) :
    ∃ bs, Late.system.Legal s bs ∧ (Late.system.run s bs).touched = true := by
  have once : ∀ a : Action F K Q, a.touches = true → a ≠ .reuse → Waker.guard s.core a →
      ∃ bs, Late.system.Legal s bs ∧ (Late.system.run s bs).touched = true := by
    intro a ht hne hg
    refine ⟨[.core a], ⟨⟨hg, fun ha => absurd ha hne⟩, trivial⟩, ?_⟩
    simp [System.run, Late.system, Late.next, hm, ht]
  rcases hw with ⟨k, hk⟩ | ⟨f, hf⟩
  · cases hpc : s.core.waker k with
    | none => exact absurd hpc hk
    | held =>
        -- The clone starts a wake, whose first load is the access.
        refine ⟨[.core (.wake k), .core (.wakeLoad k)],
          ⟨⟨hpc, by simp⟩, ⟨?_, by simp⟩, trivial⟩, ?_⟩
        · simp [Late.system, Late.next, Waker.next, Waker.guard, State.setWaker]
        · simp [System.run, Late.system, Late.next, hm, Action.touches]
    | sharing => exact once (.shareLoad k) rfl (by simp) hpc
    | shareCas old => exact once (.shareExchange k) rfl (by simp) ⟨old, hpc⟩
    | waking => exact once (.wakeLoad k) rfl (by simp) hpc
    | wakeCas refs => exact once (.wakeExchange k) rfl (by simp) ⟨refs, hpc⟩
    | claimed =>
        have hp := (h.waker k).mp hpc
        have hlife := h.life
        rw [hl, hp] at hlife
        cases hlife
  · exact once (.dropWaker f) rfl (by simp) (Or.inr hf)

theorem not_throughout_of_touched {bs : List (LateAction F K Q)} :
    ∀ s : Late F K Q, (Late.system.run s bs).touched = true →
      ¬ Late.system.Throughout Harmless s bs := by
  induction bs with
  | nil => exact fun s ht h => Bool.false_ne_true (h.untouched.symm.trans ht)
  | cons b bs ih => exact fun s ht h => ih _ ht h.2

/-- From a fresh descriptor, runs in which it is given back to the allocator
    only when no waker of it is left are harmless throughout. After any other
    step that gives it back, some continuation is not. -/
theorem late_wakes (s : Late F K Q) (hi : Late.init s) :
    (∀ as, Late.system.Legal s as → Late.system.Along NoWakerLeft s as →
      Late.system.Throughout Harmless s as) ∧
    (∀ as a, Late.system.Legal s as → Late.system.guard (Late.system.run s as) a →
      ¬ NoWakerLeft (Late.system.run s as) a →
      ∃ bs, Late.system.Legal (Late.system.run s as) (a :: bs) ∧
        ¬ Late.system.Throughout Harmless (Late.system.run s as) (a :: bs)) := by
  constructor
  · exact fun as => Late.system.throughout_of_along (I := LateInv) (fun s h => h.harmless)
      (fun s a h hg hc => safe_next h a hg hc) as s (safe_init hi)
  · -- A step outside the condition is a give-back with a waker out, which can still read.
    intro as a hl hg hc
    obtain ⟨p, hp⟩ := Late.inv_reachable (Late.system.reachable_run as s hi hl)
    cases a with
    | core a | alloc => exact absurd trivial hc
    | dealloc =>
        have hfree : Inv (Late.next (Late.system.run s as) .dealloc).core .free := by
          rcases hg with hlife | hlife
          · exact inv_reclaim hp hlife
          · exact inv_freeBranch hp hlife
        have hw : (∃ k, (Late.system.run s as).core.waker k ≠ .none) ∨
            ∃ f, (Late.system.run s as).core.frame f = .dropping .ready := by
          by_contra hno
          rw [not_or, not_exists, not_exists] at hno
          exact hc ⟨fun k => not_not.mp (hno.1 k), hno.2⟩
        obtain ⟨bs, hlegal, ht⟩ := touch_of_waker hfree rfl rfl hw
        exact ⟨bs, ⟨hg, hlegal⟩, fun h => not_throughout_of_touched _ ht h.2⟩

/-- A fresh descriptor in allocated memory. -/
def Late.fresh : Late Unit Unit Unit :=
  { core := Waker.fresh, mapped := true, touched := false }

theorem Late.init_fresh : Late.init Late.fresh :=
  ⟨⟨rfl, rfl, fun _ => rfl, fun _ => rfl, fun _ => rfl, rfl, rfl, rfl⟩, rfl, rfl⟩

/-- A task is polled once, hands out a clone of its waker and completes. -/
def cloneAndFinish : List (LateAction Unit Unit Unit) :=
  [.core (.spawn ()), .core (.dispatch () ()), .core (.markPolling ()),
    .core (.clonePrivate () ()), .core (.shareLoad ()), .core (.shareExchange ()),
    .core (.ready ()), .core (.markIdle ()), .core (.finish ()), .core (.dropWaker ())]

/-- The descriptor goes to the pool and serves another task, which the clone
    then wakes. -/
def wakeNextTask : List (LateAction Unit Unit Unit) :=
  cloneAndFinish ++ [LateAction.core .reclaim, .core .reuse, .core (.spawn ()),
    .core (.dispatch () ()), .core (.markPolling ()), .core (.pending ()), .core (.dropWaker ()), .core (.parkLoad ()),
    .core (.parkExchange ()), .core (.wake ()), .core (.wakeLoad ()), .core (.wakeExchange ()),
    .core (.push () ())]

theorem late_wakes_wakeNextTask :
    Late.system.Throughout Harmless Late.fresh wakeNextTask :=
  (late_wakes Late.fresh Late.init_fresh).1 wakeNextTask (by decide)
    (by simp [wakeNextTask, cloneAndFinish, System.Along, NoWakerLeft])

/-- The result is taken away from every worker, so the descriptor is freed,
    and the clone is woken. -/
theorem late_wake_reads_freed :
    ∃ s : Late Unit Unit Unit, Late.system.Reachable s ∧ s.touched = true ∧ ¬ Harmless s := by
  have hrun := Late.system.reachable_run
    (cloneAndFinish ++ [LateAction.dealloc, .core (.wake ()), .core (.wakeLoad ())]) Late.fresh
    Late.init_fresh (by decide)
  have ht : (Late.system.run Late.fresh
      (cloneAndFinish ++ [LateAction.dealloc, .core (.wake ()), .core (.wakeLoad ())])).touched = true := by
    decide
  exact ⟨_, hrun, ht, fun h => Bool.false_ne_true (h.untouched.symm.trans ht)⟩

end Waker

end Cmpth

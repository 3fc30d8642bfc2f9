import Mathlib.Logic.Function.Basic
import Cmpth.Core.System

/-!
# The Task a Worker Polls

The marker `polling_async` of the workers of a dual system, and the check that
keeps synchronous waits out of async polls.

`run_async_poll` is a plain call. It stores the task it is about to poll into
the worker's marker, and puts back what it found there when the poll is over;
so on one native stack the marker names the innermost poll as long as polls nest.
The marker belongs to the worker, however, and the stack to a context that can
be switched away. If a context is suspended inside a poll, the worker goes on
elsewhere with the marker of a poll that it has left, and the poll goes on
elsewhere, on a worker that knows nothing of it.

What is to prevent it is `assert_on_real_ult`: a synchronous wait is refused
unless `cur_task` is a ULT. That takes every poll to run on the stack of a
scheduler loop. But a ULT in `block_on` polls a `JoinHandle`, and that poll pops
the task from the run queue and polls it right there, on the ULT's stack, where
the check passes. A park in `block_on` is not checked at all.

Nor is the marker put back by a guard. `poll_spawned_task` catches what the
future's `poll` panics with, and nothing else: the future's destructor, the
result's, and a foreign waker run behind its `catch_unwind`, and a panic of
theirs unwinds out of `run_async_poll` past the line that restores the marker.

## Main definitions

* `Who`: A context: the loop of a worker, or a ULT.
* `Frame`: One call of `run_async_poll` on a context's stack.
* `State`, `Action`, `system`: The workers and their stacks.
* `Truthful`: Markers name the innermost polls, and no wait in a poll is let
  through.
* `apart`: The step starts no switch inside a poll, and unwinds out of none.
* `Linked`, `Inv`: The invariant.

## Theorems

* `Linked.innermost_eq`, `Inv.truthful`: Markers that are linked are truthful.
* `inv_start`: The invariant holds at the beginning.
* `Inv.cur_inj`: No two workers run one context.
* `Inv.cur_ne`, `admitted_nil`: A context that is on no worker, and a stack with no poll.
* `Inv.switched`, `Inv.polls`, `Inv.parked`: What the steps are made of keeps the invariant.
* `Inv.unwound`: A poll is left with the marker it has set, and the next one out is of the same
  descriptor.
* `inv_next`: Every step does that meets `apart`.
* `admitted_of_inside`: A wait or a park inside a poll that is let through is on record.
* `not_truthful`: One that does not shows at once.
* `truthful_iff`: So a run is truthful throughout exactly if all its steps meet `apart`.
* `truthful_refused`: A wait that is refused.
* `stale_marker`: A wait on a ULT's stack inside a poll, a park, and a panic.
-/

namespace Cmpth

namespace Worker

namespace Marker

/-- A context: the loop of a worker, or a ULT. -/
inductive Who (W T : Type*) where
  | loop (w : W)
  | ult (t : T)
  deriving DecidableEq, Repr

/-- `is_root`. -/
def Who.isRoot {W T : Type*} : Who W T → Bool
  | .loop _ => true
  | .ult _ => false

/-- One call of `run_async_poll`, with its locals: the task it polls, the marker
    it has found and the worker it was called on. The last flag says that the task
    is finished or has parked, so that it may already be polled elsewhere, or be
    another one. -/
structure Frame (W A : Type*) where
  desc : A
  prev : Option A
  wk : W
  polled : Bool
  deriving DecidableEq, Repr

/-- The workers: `cur_task` and `polling_async` of each; for each context the
    worker it runs on and the polls on its stack, innermost first; whether a task
    is being polled; and as history whether a wait inside a poll was let through. -/
structure State (W T A : Type*) where
  cur : W → Who W T
  polling : W → Option A
  on : Who W T → Option W
  frames : Who W T → List (Frame W A)
  busy : A → Bool
  admitted : Bool

/-- The switches and the polls of a worker, as they begin and end. -/
inductive Action (W T A : Type*) where
  /-- `run_on` a ULT. -/
  | runOn (w : W) (t : T)
  /-- `wait_with`, `wait_with_cond`, `enter` or `swap`, to the next context. -/
  | wait (w : W) (n : Who W T)
  /-- `UltPoller::wait`. -/
  | park (w : W) (n : Who W T)
  /-- Any other switch: `spawn`, `join` or `yield_now`. -/
  | switch (w : W) (n : Who W T)
  | exit (w : W) (t : T) (n : Who W T)
  /-- `run_async_poll`, from the loop or from `JoinHandle::poll`. -/
  | poll (w : W) (a : A)
  /-- The task is finished, or has parked. -/
  | polled (w : W) (a : A)
  /-- `ReadyAndContinue`. -/
  | transfer (w : W) (a a' : A)
  /-- The marker is put back. -/
  | restore (w : W)
  /-- A panic leaves `run_async_poll`: a destructor of the future's or of the result's, or a
      waker. -/
  | unwind (w : W)
  deriving DecidableEq, Repr

section

variable {W T A : Type*} [DecidableEq W] [DecidableEq T] [DecidableEq A]

namespace State

/-- The polls on the stack a worker is running on. -/
def stack (s : State W T A) (w : W) : List (Frame W A) :=
  s.frames (s.cur w)

/-- A context may be switched to when it is on no worker, and a loop only by its
    own worker. A token of a loop that has got into a run queue is not followed. -/
def ready (s : State W T A) (w : W) (n : Who W T) : Prop :=
  s.on n = none ∧ ∀ v, n = .loop v → v = w

instance (s : State W T A) (w : W) (n : Who W T) : Decidable (s.ready w n) := by
  cases n with
  | loop v =>
      exact decidable_of_iff (s.on (.loop v) = none ∧ v = w)
        ⟨fun h => ⟨h.1, fun _ he => (Who.loop.inj he) ▸ h.2⟩, fun h => ⟨h.1, h.2 v rfl⟩⟩
  | ult t => exact decidable_of_iff (s.on (.ult t) = none) ⟨fun h => ⟨h, nofun⟩, fun h => h.1⟩

/-- The worker's stack pointer moves, and `cur_task` with it; the marker does
    not. -/
def switched (s : State W T A) (w : W) (n : Who W T) : State W T A :=
  { s with
    cur := Function.update s.cur w n
    on := Function.update (Function.update s.on (s.cur w) none) n (some w) }

/-- `assert_on_real_ult`: a wait is refused on the stack of a loop. -/
def waited (s : State W T A) (w : W) (n : Who W T) : State W T A :=
  if (s.cur w).isRoot then s
  else { s.switched w n with admitted := s.admitted || !(s.stack w).isEmpty }

/-- A park of `block_on` is not checked. -/
def parked (s : State W T A) (w : W) (n : Who W T) : State W T A :=
  { s.switched w n with admitted := s.admitted || !(s.stack w).isEmpty }

/-- The stack the worker is running on. -/
def setStack (s : State W T A) (w : W) (fs : List (Frame W A)) : State W T A :=
  { s with frames := Function.update s.frames (s.cur w) fs }

end State

/-- When an action is enabled. -/
def guard (s : State W T A) : Action W T A → Prop
  | .runOn w t => (s.cur w).isRoot = true ∧ s.stack w = [] ∧ s.ready w (.ult t)
  | .wait w n | .park w n | .switch w n => s.ready w n
  | .exit w t n => s.cur w = .ult t ∧ s.stack w = [] ∧ s.ready w n
  | .poll _ a => s.busy a = false
  | .polled w a => ∃ f ∈ (s.stack w).head?, f.desc = a ∧ f.polled = false
  | .transfer w a a' =>
      s.busy a' = false ∧ ∃ f ∈ (s.stack w).head?, f.desc = a ∧ f.polled = false
  | .restore w => ∃ f ∈ (s.stack w).head?, f.polled = true
  | .unwind w => s.stack w ≠ []

instance (s : State W T A) (a : Action W T A) : Decidable (guard s a) := by
  cases a <;> unfold guard <;> infer_instance

/-- The state an action leads to. -/
def next (s : State W T A) : Action W T A → State W T A
  | .runOn w t => s.switched w (.ult t)
  | .wait w n => s.waited w n
  | .park w n => s.parked w n
  | .switch w n | .exit w _ n => s.switched w n
  | .poll w a =>
      { s.setStack w ({ desc := a, prev := s.polling w, wk := w, polled := false } :: s.stack w)
        with
        polling := Function.update s.polling w (some a)
        busy := Function.update s.busy a true }
  | .polled w a =>
      match s.stack w with
      | [] => s
      | f :: fs =>
          { s.setStack w ({ f with polled := true } :: fs) with
            busy := Function.update s.busy a false }
  | .transfer w a a' =>
      match s.stack w with
      | [] => s
      | f :: fs =>
          { s.setStack w ({ f with desc := a' } :: fs) with
            polling := Function.update s.polling f.wk (some a')
            busy := Function.update (Function.update s.busy a false) a' true }
  | .restore w =>
      match s.stack w with
      | [] => s
      | f :: fs =>
          { s.setStack w fs with polling := Function.update s.polling f.wk f.prev }
  | .unwind w => s.setStack w (s.stack w).tail

/-- Every worker is in its loop. -/
def start : State W T A where
  cur w := .loop w
  polling _ := none
  on
    | .loop w => some w
    | .ult _ => none
  frames _ := []
  busy _ := false
  admitted := false

/-- The workers as a guarded transition system. -/
def system : System (State W T A) (Action W T A) where
  init s := s = start
  guard := guard
  next := next

instance (s : State W T A) (a : Action W T A) : Decidable ((system).guard s a) :=
  inferInstanceAs (Decidable (guard s a))

/-- The task of the innermost poll. -/
def innermost (fs : List (Frame W A)) : Option A :=
  fs.head?.map Frame.desc

/-- Every worker's marker names the innermost poll of the code that runs there,
    and no wait or park inside a poll was let through. -/
def Truthful (s : State W T A) : Prop :=
  (∀ w, s.polling w = innermost (s.stack w)) ∧ s.admitted = false

/-- The step starts no switch inside a poll; a wait on the stack of a loop is
    refused. Nor does it unwind out of a poll, unless the next poll out is of the
    same descriptor, which has then been freed and made anew. -/
def apart (s : State W T A) : Action W T A → Prop
  | .wait w _ => (s.cur w).isRoot = true ∨ s.stack w = []
  | .park w _ | .switch w _ => s.stack w = []
  | .unwind w => innermost (s.stack w) = innermost (s.stack w).tail
  | _ => True

instance (s : State W T A) (a : Action W T A) : Decidable (apart s a) := by
  cases a <;> unfold apart <;> infer_instance

/-- The polls on the stack a worker runs on were all called there, and each has
    found the marker of the next one out. -/
def Linked (w : W) : List (Frame W A) → Option A → Prop
  | [], m => m = none
  | f :: fs, m => m = some f.desc ∧ f.wk = w ∧ Linked w fs f.prev

/-- The invariant as long as switches start outside of polls. -/
structure Inv (s : State W T A) : Prop where
  on_iff : ∀ n w, s.on n = some w ↔ s.cur w = n
  linked : ∀ w, Linked w (s.stack w) (s.polling w)
  -- Only what runs can be inside a poll.
  away : ∀ n, s.on n = none → s.frames n = []
  kept : s.admitted = false

variable {s : State W T A} {w v : W} {n : Who W T} {fs : List (Frame W A)} {m : Option A}
  {a a' : A}

omit [DecidableEq W] [DecidableEq A] in
theorem Linked.innermost_eq (h : Linked w fs m) : m = innermost fs := by
  cases fs with
  | nil => exact h
  | cons f fs => exact h.1

omit [DecidableEq W] [DecidableEq T] [DecidableEq A] in
theorem inv_start : Inv (start : State W T A) where
  on_iff := by
    intro n w
    cases n with
    | loop v => exact ⟨fun h => Option.some.inj h ▸ rfl, fun h => Who.loop.inj h ▸ rfl⟩
    | ult t => exact ⟨nofun, nofun⟩
  linked _ := rfl
  away _ _ := rfl
  kept := rfl

omit [DecidableEq T] [DecidableEq W] [DecidableEq A] in
theorem Inv.truthful (h : Inv s) : Truthful s :=
  ⟨fun w => (h.linked w).innermost_eq, h.kept⟩

omit [DecidableEq W] [DecidableEq T] [DecidableEq A] in
/-- No two workers run one context. -/
theorem Inv.cur_inj (h : Inv s) (hc : s.cur v = s.cur w) : v = w := by
  have hv := (h.on_iff (s.cur w) v).mpr hc
  have hw := (h.on_iff (s.cur w) w).mpr rfl
  exact Option.some.inj (hv.symm.trans hw)

omit [DecidableEq W] [DecidableEq T] [DecidableEq A] in
theorem Inv.cur_ne (h : Inv s) (hn : s.on n = none) (v : W) : s.cur v ≠ n := by
  intro hc
  rw [(h.on_iff n v).mpr hc] at hn
  cases hn

omit [DecidableEq A] in
/-- A switch that starts outside of polls, and ends outside of them. -/
theorem Inv.switched (h : Inv s) (hn : s.on n = none) (hs : s.stack w = []) :
    Inv (s.switched w n) where
  on_iff := by
    intro n' v
    change Function.update (Function.update s.on (s.cur w) none) n (some w) n' = some v ↔
      Function.update s.cur w n v = n'
    by_cases hv : v = w
    · subst hv
      rw [Function.update_self]
      by_cases hn' : n' = n
      · rw [hn', Function.update_self]
        exact iff_of_true rfl rfl
      · rw [Function.update_of_ne hn']
        refine iff_of_false (fun he => ?_) (fun he => hn' he.symm)
        by_cases hc : n' = s.cur v
        · rw [hc, Function.update_self] at he
          cases he
        · rw [Function.update_of_ne hc] at he
          exact hc ((h.on_iff n' v).mp he).symm
    · rw [Function.update_of_ne hv]
      by_cases hn' : n' = n
      · rw [hn', Function.update_self]
        refine iff_of_false (fun he => hv (Option.some.inj he).symm) (h.cur_ne hn v)
      · rw [Function.update_of_ne hn']
        by_cases hc : n' = s.cur w
        · rw [hc, Function.update_self]
          exact iff_of_false (by simp) fun he => hv (h.cur_inj he)
        · rw [Function.update_of_ne hc]
          exact h.on_iff n' v
  linked := by
    intro v
    change Linked v (s.frames (Function.update s.cur w n v)) (s.polling v)
    -- The worker's stack is empty, so nothing of it is linked.
    by_cases hv : v = w
    · have hl := h.linked w
      rw [hs] at hl
      rw [hv, Function.update_self, h.away n hn]
      exact hl
    · rw [Function.update_of_ne hv]
      exact h.linked v
  away := by
    intro n' hn'
    change Function.update (Function.update s.on (s.cur w) none) n (some w) n' = none at hn'
    by_cases hnn : n' = n
    · rw [hnn, Function.update_self] at hn'
      cases hn'
    · rw [Function.update_of_ne hnn] at hn'
      by_cases hc : n' = s.cur w
      · rw [hc]
        exact hs
      · rw [Function.update_of_ne hc] at hn'
        exact h.away n' hn'
  kept := h.kept

omit [DecidableEq A] in
/-- A poll begins, goes over to another task or ends on the stack of one
    worker. -/
theorem Inv.polls (h : Inv s) (hl : Linked w fs m) {b : A → Bool} :
    Inv { s.setStack w fs with polling := Function.update s.polling w m, busy := b } where
  on_iff := h.on_iff
  linked := by
    intro v
    change Linked v (Function.update s.frames (s.cur w) fs (s.cur v))
      (Function.update s.polling w m v)
    by_cases hv : v = w
    · rw [hv, Function.update_self, Function.update_self]
      exact hl
    · rw [Function.update_of_ne hv, Function.update_of_ne fun hc => hv (h.cur_inj hc)]
      exact h.linked v
  away := by
    intro n hn
    change Function.update s.frames (s.cur w) fs n = []
    rw [Function.update_of_ne fun hc => h.cur_ne hn w hc.symm]
    exact h.away n hn
  kept := h.kept

omit [DecidableEq W] [DecidableEq T] [DecidableEq A] in
theorem admitted_nil (hs : s.stack w = []) : (s.admitted || !(s.stack w).isEmpty) = s.admitted := by
  rw [hs]
  exact Bool.or_false _

omit [DecidableEq A] in
theorem Inv.parked (h : Inv s) (hn : s.on n = none) (hs : s.stack w = []) :
    Inv (s.parked w n) := by
  have hsame : s.parked w n = s.switched w n := by
    unfold State.parked
    rw [admitted_nil hs]
    rfl
  rw [hsame]
  exact h.switched hn hs

omit [DecidableEq A] in
/-- A poll is left with the marker it has set, and the next one out is of the same descriptor. -/
theorem Inv.unwound (h : Inv s) (hs : innermost (s.stack w) = innermost (s.stack w).tail) :
    Inv (s.setStack w (s.stack w).tail) := by
  have hl := h.linked w
  have htail : Linked w (s.stack w).tail (s.polling w) := by
    cases hf : s.stack w with
    | nil =>
        rw [hf] at hl
        exact hl
    | cons f fs =>
        rw [hf] at hl hs
        obtain ⟨hmark, -, hrest⟩ := hl
        -- What the frame would have put back is what is there.
        have hprev : f.prev = s.polling w := hrest.innermost_eq.trans (hs.symm.trans hmark.symm)
        rw [hprev] at hrest
        exact hrest
  have hinv := h.polls htail (b := s.busy)
  rwa [Function.update_eq_self] at hinv

/-- Every step keeps the invariant that starts no switch inside a poll and unwinds
    out of none. -/
theorem inv_next {α : Action W T A} (h : Inv s) (hg : guard s α) (ha : apart s α) :
    Inv (next s α) := by
  -- Switches end with an empty stack, and polls push and pop a frame each.
  cases α with
  | runOn w t => exact h.switched hg.2.2.1 hg.2.1
  | wait w n =>
      change Inv (s.waited w n)
      unfold State.waited
      split
      next => exact h
      next hroot =>
        rcases ha with hr | hs
        · exact absurd hr hroot
        · exact h.parked hg.1 hs
  | park w n => exact h.parked hg.1 ha
  | switch w n => exact h.switched hg.1 ha
  | exit w t n => exact h.switched hg.2.2.1 hg.2.1
  | poll w a =>
      have hl : Linked w ({ desc := a, prev := s.polling w, wk := w, polled := false } ::
          s.stack w) (some a) := ⟨rfl, rfl, h.linked w⟩
      exact h.polls hl
  | polled w a =>
      have hl := h.linked w
      unfold next
      dsimp only
      split
      next => exact h
      next f fs hstack =>
        rw [hstack] at hl
        have hl' : Linked w ({ f with polled := true } :: fs) (s.polling w) := hl
        have hinv := h.polls hl' (b := Function.update s.busy a false)
        rwa [Function.update_eq_self] at hinv
  | transfer w a a' =>
      have hl := h.linked w
      unfold next
      dsimp only
      split
      next => exact h
      next f fs hstack =>
        rw [hstack] at hl
        obtain ⟨-, rfl, hrest⟩ := hl
        have hl' : Linked f.wk ({ f with desc := a' } :: fs) (some a') := ⟨rfl, rfl, hrest⟩
        exact h.polls hl'
  | restore w =>
      have hl := h.linked w
      unfold next
      dsimp only
      split
      next => exact h
      next f fs hstack =>
        rw [hstack] at hl
        obtain ⟨-, rfl, hrest⟩ := hl
        exact h.polls hrest
  | unwind w => exact h.unwound ha

omit [DecidableEq W] [DecidableEq T] [DecidableEq A] in
/-- A wait or a park inside a poll that is let through is on record. -/
theorem admitted_of_inside (hs : s.stack w ≠ []) :
    (s.admitted || !(s.stack w).isEmpty) = true := by
  cases hf : s.stack w with
  | nil => exact absurd hf hs
  | cons f fs => exact Bool.or_true _

/-- A step that starts a switch inside a poll, or unwinds out of one, shows at once. -/
theorem not_truthful {α : Action W T A} (h : Inv s) (hg : guard s α) (ha : ¬ apart s α) :
    ¬ Truthful (next s α) := by
  rintro ⟨hmark, hkept⟩
  cases α with
  | wait w n =>
      have hroot : (s.cur w).isRoot ≠ true := fun hr => ha (.inl hr)
      have hs : s.stack w ≠ [] := fun hr => ha (.inr hr)
      change (s.waited w n).admitted = false at hkept
      unfold State.waited at hkept
      rw [if_neg hroot] at hkept
      cases hkept.symm.trans (admitted_of_inside hs)
  | park w n => cases hkept.symm.trans (admitted_of_inside ha)
  | switch w n =>
      -- The marker still names the poll; the context that runs now is in none.
      have hold := (h.linked w).innermost_eq
      have hnew := hmark w
      change s.polling w = innermost (s.frames (Function.update s.cur w n w)) at hnew
      rw [Function.update_self, h.away n hg.1, hold] at hnew
      cases hf : s.stack w with
      | nil => exact ha hf
      | cons f fs =>
          rw [hf] at hnew
          cases hnew
  | unwind w =>
      -- The marker still names the poll that was left.
      have hold := (h.linked w).innermost_eq
      have hnew := hmark w
      change s.polling w =
        innermost (Function.update s.frames (s.cur w) (s.stack w).tail (s.cur w)) at hnew
      rw [Function.update_self, hold] at hnew
      exact ha hnew
  | runOn w t | exit w t n | poll w a | polled w a | transfer w a a' | restore w =>
      exact ha trivial

/-- A run is truthful in every state exactly if no step of it starts a switch
    inside a poll or unwinds out of one. -/
theorem truthful_iff (as : List (Action W T A)) (h : (system).Legal start as) :
    (system).Throughout Truthful start as ↔ (system).Along apart start as :=
  System.throughout_iff_along system (I := Inv) (fun _ hI => hI.truthful)
    (fun _ _ hI hg ha => inv_next hI hg ha) (fun _ _ hI hg ha => not_truthful hI hg ha) as start
    inv_start h

end

/-- A ULT reclaims a task in `block_on`, polls it to the end and parks; another
    task is polled by the loop, where a wait is refused. -/
def refusedWait : List (Action Bool Unit Bool) :=
  [.runOn true (), .poll true false, .polled true false, .restore true,
    .park true (.loop true), .poll true true, .wait true (.ult ()), .polled true true,
    .restore true]

theorem truthful_refused :
    (system).Throughout Truthful start refusedWait ∧
      ((system).run start (refusedWait.take 6)).polling true = some true ∧
      ((system).run start refusedWait).polling true = none ∧
      ((system).run start refusedWait).admitted = false :=
  ⟨(truthful_iff refusedWait (by decide +kernel)).mpr (by decide +kernel), by decide +kernel,
    by decide +kernel, by decide +kernel⟩

/-- The task that is polled on the ULT's stack waits, and another worker takes the
    ULT over. -/
def admittedWait : List (Action Bool Unit Bool) :=
  [.runOn true (), .poll true false, .wait true (.loop true), .runOn false ()]

/-- A park inside a poll on a loop's stack, with a ULT to go on with. -/
def admittedPark : List (Action Bool Unit Bool) :=
  [.poll true false, .park true (.ult ())]

/-- A ULT reclaims a task in `block_on`, the destructor of the task's future panics, and the ULT
    catches it. -/
def unwoundPoll : List (Action Bool Unit Bool) :=
  [.runOn true (), .poll true false, .unwind true]

/-- The wait is let through: the worker is back in its loop with the marker of a
    poll, and the poll is on a worker without one. A park is not even checked. After the
    panic a ULT outside of all polls runs under the marker of one. -/
theorem stale_marker :
    (system).Legal (start : State Bool Unit Bool) admittedWait ∧
      ((system).run start admittedWait).polling true = some false ∧
      innermost (((system).run start admittedWait).stack true) = none ∧
      ((system).run start admittedWait).polling false = none ∧
      innermost (((system).run start admittedWait).stack false) = some false ∧
      ¬ Truthful ((system).run start admittedWait) ∧
      (system).Legal (start : State Bool Unit Bool) admittedPark ∧
      ¬ Truthful ((system).run start admittedPark) ∧
      (system).Legal (start : State Bool Unit Bool) unwoundPoll ∧
      ((system).run start unwoundPoll).stack true = [] ∧
      ((system).run start unwoundPoll).polling true = some false := by
  refine ⟨by decide +kernel, by decide +kernel, by decide +kernel, by decide +kernel,
    by decide +kernel, fun h => ?_, by decide +kernel, fun h => ?_, by decide +kernel,
    by decide +kernel, by decide +kernel⟩
  · exact absurd h.2 (by decide +kernel)
  · exact absurd h.2 (by decide +kernel)

end Marker

end Worker

end Cmpth

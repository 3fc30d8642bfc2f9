import Mathlib.Logic.Function.Basic
import Cmpth.Core.System

/-!
# The End of `run_async`

The root task of a stackless pool, from its fork to the return of the pass that completes it, and
the worker loops that wait for `finish`.

The root task is `async move { root.await; shared2.pool.finish(); }`, so `finish` is called from
inside the last poll, where the root's own future has returned and has been dropped: the awaited
future is a temporary of its statement. A panic of that future, in a poll or in its destructor, is
a panic of the whole block: it skips the call, is caught by `poll_spawned_task`, becomes the result
of a task that has no handle, and is dropped with it. Then there is nobody left to call `finish`.

What the root does in a poll is left open, and so is who wakes it and when. A root that is woken
during a poll is queued again after it. Other tasks of the pool are not modelled: they do not
call `finish`.

## Main definitions

* `Phase`, `State`, `Action`, `system`: The root task and the worker loops.
* `Executed`: Once the root task is done, `finish` has been executed once.
* `Returns`: In the step the root does not panic, neither in a poll nor in its destructor.
* `Inv`: The invariant.
* `Abandoned`: The root task is done, and has panicked.

## Theorems

* `Inv.moved`: A step that only moves the task to a phase of the same kind.
* `inv_poll`, `inv_drop`, `inv_wake`: The steps of the root task and of its waker.
* `inv_next`: Every step keeps the invariant.
* `inv_init`: The invariant holds at the beginning.
* `panicked_next`: A future that has ended does not end again.
* `not_panicked_next`: Only a poll that panics, or a drop that does, makes the future panic.
* `panicked_of_step`: A step in which the root panics ends it so.
* `done_next`: A root task that is done stays done.
* `executed_iff`: Where `finish` has not been executed, it is because of a panic.
* `finish_executed_iff`: The runs in which `finish` is executed are those in which the root has not
  panicked.
* `never_ends`: If it has, no worker leaves its loop any more.
* `finish_executed_returned`: A root that returns.
* `panic_skips_finish`: A root that panics in its first poll, and one that panics in its destructor.
-/

namespace Cmpth

namespace RunAsync

/-- What a poll of the root's future comes to. -/
inductive Poll where
  | pending
  | ready
  | panic
  deriving DecidableEq, Repr

/-- How the root's future has ended. -/
inductive Ended where
  | returned
  | panicked
  deriving DecidableEq, Repr

/-- Where the root task is, and on which worker. -/
inductive Phase (W : Type*) where
  /-- In a run queue, or in the external queue. -/
  | queued
  /-- The root's future is running. -/
  | polling (w : W)
  /-- `poll_fn` has returned `Pending`; about to park. -/
  | parking (w : W)
  | parked
  /-- The root's future has returned, and is about to be dropped. -/
  | dropping (w : W)
  /-- `root.await` is through; `finish` is about to set `finished`. -/
  | finishing (w : W)
  /-- `finish` is about to shut the idle policy down. -/
  | shutting (w : W)
  /-- The block has ended; `poll_spawned_task` is about to write the result and settle. -/
  | settling (w : W)
  /-- Reclaimed; `run_async_poll` is about to return. -/
  | leaving (w : W)
  | done
  deriving DecidableEq, Repr

/-- The root task and the pool. `finishes` counts the calls of `finish`, and `ended` is how the
    root's future has ended. -/
structure State (W : Type*) where
  phase : Phase W
  notified : Bool
  finished : Bool
  finishes : Nat
  ended : Option Ended
  exited : W → Bool

/-- The steps of the root task, of its waker and of the worker loops. -/
inductive Action (W : Type*) where
  /-- A worker takes the task from a queue. -/
  | take (w : W)
  | poll (out : Poll)
  /-- The drop of the root's future, at the end of `root.await;`. -/
  | drop (panics : Bool)
  | park
  | wake
  /-- `finish`: the store. -/
  | store
  /-- `finish`: the shutdown. -/
  | shutdown
  | settle
  /-- The frame of `run_async_poll` returns. -/
  | leave
  /-- A worker finds `finished` set at the head of its loop. -/
  | exit (w : W)
  deriving DecidableEq, Repr

variable {W : Type*}

/-- The worker that the task keeps busy. -/
def Phase.worker : Phase W → Option W
  | .polling w | .parking w | .dropping w | .finishing w | .shutting w | .settling w
  | .leaving w => some w
  | .queued | .parked | .done => none

/-- When an action is enabled. -/
def guard (s : State W) : Action W → Prop
  | .take w => s.phase = .queued ∧ s.exited w = false
  | .poll _ => ∃ w, s.phase = .polling w
  | .drop _ => ∃ w, s.phase = .dropping w
  | .park => ∃ w, s.phase = .parking w
  | .wake => True
  | .store => ∃ w, s.phase = .finishing w
  | .shutdown => ∃ w, s.phase = .shutting w
  | .settle => ∃ w, s.phase = .settling w
  | .leave => ∃ w, s.phase = .leaving w
  | .exit w => s.finished = true ∧ s.exited w = false ∧ s.phase.worker ≠ some w

/-- What follows a poll of the root's future. -/
def State.polled (s : State W) (w : W) : Poll → State W
  | .pending => { s with phase := .parking w }
  | .ready => { s with phase := .dropping w }
  | .panic => { s with phase := .settling w, ended := some .panicked }

/-- The rest of the block after the last poll of the root's future. -/
def State.dropped (s : State W) (w : W) (panics : Bool) : State W :=
  if panics then { s with phase := .settling w, ended := some .panicked }
  else { s with phase := .finishing w }

/-- A wake of the root task: it is queued, or noted for after the poll, or it comes too late. -/
def State.woken (s : State W) : State W :=
  match s.phase with
  | .parked => { s with phase := .queued }
  | .polling _ | .parking _ | .dropping _ | .finishing _ | .shutting _ =>
      { s with notified := true }
  | .queued | .settling _ | .leaving _ | .done => s

/-- The state an action leads to. -/
def next [DecidableEq W] (s : State W) : Action W → State W
  | .take w => { s with phase := .polling w, notified := false }
  | .poll out =>
      match s.phase with
      | .polling w => s.polled w out
      | _ => s
  | .drop panics =>
      match s.phase with
      | .dropping w => s.dropped w panics
      | _ => s
  | .park => { s with phase := if s.notified then .queued else .parked }
  | .wake => s.woken
  | .store =>
      match s.phase with
      | .finishing w => { s with phase := .shutting w, finished := true }
      | _ => s
  | .shutdown =>
      match s.phase with
      | .shutting w =>
          { s with
            phase := .settling w
            finishes := s.finishes + 1
            ended := some .returned }
      | _ => s
  | .settle =>
      match s.phase with
      | .settling w => { s with phase := .leaving w }
      | _ => s
  | .leave => { s with phase := .done }
  | .exit w => { s with exited := Function.update s.exited w true }

/-- The root task has been pushed, and the worker loops start. -/
def init (s : State W) : Prop :=
  s.phase = .queued ∧ s.notified = false ∧ s.finished = false ∧ s.finishes = 0 ∧
    s.ended = none ∧ ∀ w, s.exited w = false

variable [DecidableEq W]

/-- The pool as a guarded transition system. -/
def system : System (State W) (Action W) where
  init := init
  guard := guard
  next := next

/-- Whether the root is in a phase of some worker's is decided by asking that worker. -/
@[reducible] def decidableIn (phase : Phase W) (f : W → Phase W)
    (hf : ∀ w, (f w).worker = some w) : Decidable (∃ w, phase = f w) :=
  match h : phase.worker with
  | none => isFalse fun ⟨w, he⟩ => by rw [he, hf] at h; cases h
  | some w =>
      decidable_of_iff (phase = f w)
        ⟨fun he => ⟨w, he⟩, fun ⟨v, he⟩ => by
          rw [he, hf] at h
          cases h
          exact he⟩

instance (s : State W) : ∀ a : Action W, Decidable (guard s a)
  | .take _ | .exit _ => inferInstanceAs (Decidable (_ ∧ _))
  | .wake => inferInstanceAs (Decidable True)
  | .poll _ => decidableIn s.phase .polling fun _ => rfl
  | .drop _ => decidableIn s.phase .dropping fun _ => rfl
  | .park => decidableIn s.phase .parking fun _ => rfl
  | .store => decidableIn s.phase .finishing fun _ => rfl
  | .shutdown => decidableIn s.phase .shutting fun _ => rfl
  | .settle => decidableIn s.phase .settling fun _ => rfl
  | .leave => decidableIn s.phase .leaving fun _ => rfl

instance (s : State W) (a : Action W) : Decidable (system.guard s a) :=
  inferInstanceAs (Decidable (guard s a))

section

-- The proofs take these apart in parallel: their equations are made here, once.
attribute [local simp] next

end

/-- Once the root task has completed and its frame has returned, `finish` has been executed,
    once. -/
def Executed (s : State W) : Prop :=
  s.phase = .done → s.finishes = 1

/-- The step is neither a poll of the root that panics nor a drop of it that does. -/
def Returns (_ : State W) (a : Action W) : Prop :=
  a ≠ .poll .panic ∧ a ≠ .drop true

instance (s : State W) (a : Action W) : Decidable (Returns s a) :=
  inferInstanceAs (Decidable (_ ∧ _))

/-- `finish` has run as far as the phase says, and after a panic not at all. -/
def Phase.Fits (finished : Bool) (finishes : Nat) (ended : Option Ended) : Phase W → Prop
  | .queued | .polling _ | .parking _ | .parked | .dropping _ | .finishing _ =>
      finished = false ∧ finishes = 0 ∧ ended = none
  | .shutting _ => finished = true ∧ finishes = 0 ∧ ended = none
  | .settling _ | .leaving _ | .done =>
      finished = true ∧ finishes = 1 ∧ ended = some .returned ∨
        finished = false ∧ finishes = 0 ∧ ended = some .panicked

/-- The invariant: the phase, and nobody leaves before `finished` is set. -/
structure Inv (s : State W) : Prop where
  fits : s.phase.Fits s.finished s.finishes s.ended
  stays : s.finished = false → ∀ w, s.exited w = false

/-- The root's future has panicked. -/
def Panicked (s : State W) : Prop :=
  s.ended = some .panicked

variable {s : State W}

omit [DecidableEq W] in
/-- A step that only moves the task to a phase of the same kind. -/
theorem Inv.moved (h : Inv s) {phase : Phase W} {notified : Bool}
    (hp : phase.Fits s.finished s.finishes s.ended) :
    Inv { s with phase := phase, notified := notified } :=
  ⟨hp, h.stays⟩

theorem inv_poll (h : Inv s) {w : W} (hp : s.phase = .polling w) (out : Poll) :
    Inv (next s (.poll out)) := by
  have hfits := h.fits
  rw [hp] at hfits
  simp only [next, hp]
  cases out with
  | pending | ready => exact ⟨hfits, h.stays⟩
  | panic => exact ⟨.inr ⟨hfits.1, hfits.2.1, rfl⟩, h.stays⟩

theorem inv_drop (h : Inv s) {w : W} (hp : s.phase = .dropping w) (panics : Bool) :
    Inv (next s (.drop panics)) := by
  have hfits := h.fits
  rw [hp] at hfits
  simp only [next, hp]
  cases panics with
  | false => exact ⟨hfits, h.stays⟩
  | true => exact ⟨.inr ⟨hfits.1, hfits.2.1, rfl⟩, h.stays⟩

theorem inv_wake (h : Inv s) : Inv (next s .wake) := by
  have hfits := h.fits
  simp only [next, State.woken]
  split
  · next hp =>
      rw [hp] at hfits
      exact ⟨hfits, h.stays⟩
  all_goals exact ⟨hfits, h.stays⟩

theorem inv_next (h : Inv s) {a : Action W} (hg : guard s a) : Inv (next s a) := by
  have hfits := h.fits
  -- Only the worker that has the root task moves its phase.
  cases a with
  | take w =>
      rw [hg.1] at hfits
      exact ⟨hfits, h.stays⟩
  | poll out =>
      rcases hg with ⟨w, hp⟩
      exact inv_poll h hp out
  | drop panics =>
      rcases hg with ⟨w, hp⟩
      exact inv_drop h hp panics
  | park =>
      rcases hg with ⟨w, hp⟩
      rw [hp] at hfits
      simp only [next]
      cases s.notified <;> exact ⟨hfits, h.stays⟩
  | wake => exact inv_wake h
  | store =>
      rcases hg with ⟨w, hp⟩
      rw [hp] at hfits
      simp only [next, hp]
      exact ⟨⟨rfl, hfits.2⟩, nofun⟩
  | shutdown =>
      rcases hg with ⟨w, hp⟩
      rw [hp] at hfits
      simp only [next, hp]
      exact ⟨.inl ⟨hfits.1, by rw [hfits.2.1], rfl⟩, h.stays⟩
  | settle =>
      rcases hg with ⟨w, hp⟩
      rw [hp] at hfits
      simp only [next, hp]
      exact ⟨hfits, h.stays⟩
  | leave =>
      rcases hg with ⟨w, hp⟩
      rw [hp] at hfits
      exact ⟨hfits, h.stays⟩
  | exit w =>
      refine ⟨hfits, fun hf => ?_⟩
      rw [show (next s (.exit w)).finished = s.finished from rfl, hg.1] at hf
      cases hf

omit [DecidableEq W] in
theorem inv_init (hi : init s) : Inv s := by
  rcases hi with ⟨hphase, -, hfin, hfins, hended, hexited⟩
  refine ⟨?_, fun _ => hexited⟩
  rw [hphase]
  exact ⟨hfin, hfins, hended⟩

/-- A future that has ended does not end again. -/
theorem panicked_next (h : Inv s) (hp : Panicked s) {a : Action W} (hg : guard s a) :
    Panicked (next s a) := by
  have hfits := h.fits
  -- A phase in which the future is still there has not ended by a panic.
  have hopen : ∀ {phase : Phase W}, s.phase = phase →
      (phase.Fits s.finished s.finishes s.ended → s.ended = none) → Panicked (next s a) := by
    intro phase he hn
    rw [he] at hfits
    rw [Panicked, hn hfits] at hp
    cases hp
  cases a with
  | take w => exact hp
  | poll out =>
      rcases hg with ⟨w, hw⟩
      exact hopen hw fun hf => hf.2.2
  | drop panics =>
      rcases hg with ⟨w, hw⟩
      exact hopen hw fun hf => hf.2.2
  | park =>
      rcases hg with ⟨w, hw⟩
      exact hopen hw fun hf => hf.2.2
  | wake =>
      simp only [next, State.woken, Panicked]
      split <;> exact hp
  | store =>
      rcases hg with ⟨w, hw⟩
      exact hopen hw fun hf => hf.2.2
  | shutdown =>
      rcases hg with ⟨w, hw⟩
      exact hopen hw fun hf => hf.2.2
  | settle =>
      rcases hg with ⟨w, hw⟩
      simp only [next, hw, Panicked]
      exact hp
  | leave => exact hp
  | exit w => exact hp

/-- Only a poll that panics, or a drop that does, makes the future panic. -/
theorem not_panicked_next (hp : ¬ Panicked s) {a : Action W} (hg : guard s a)
    (hr : Returns s a) : ¬ Panicked (next s a) := by
  -- The other steps move the phase on without the future.
  cases a with
  | poll out =>
      rcases hg with ⟨w, hw⟩
      simp only [next, hw, Panicked]
      cases out with
      | pending | ready => exact hp
      | panic => exact absurd rfl hr.1
  | drop panics =>
      rcases hg with ⟨w, hw⟩
      simp only [next, hw, Panicked]
      cases panics with
      | false => exact hp
      | true => exact absurd rfl hr.2
  | wake =>
      simp only [next, State.woken, Panicked]
      split <;> exact hp
  | store =>
      rcases hg with ⟨w, hw⟩
      simp only [next, hw, Panicked]
      exact hp
  | shutdown =>
      rcases hg with ⟨w, hw⟩
      simp only [next, hw, Panicked]
      nofun
  | settle =>
      rcases hg with ⟨w, hw⟩
      simp only [next, hw, Panicked]
      exact hp
  | take | park | leave | exit => exact hp

theorem panicked_of_step {a : Action W} (hg : guard s a) (hr : ¬ Returns s a) :
    Panicked (next s a) := by
  have ha : a = .poll .panic ∨ a = .drop true := by
    by_contra hne
    exact hr (not_or.mp hne)
  rcases ha with rfl | rfl
  · rcases hg with ⟨w, hw⟩
    simp only [next, hw]
    rfl
  · rcases hg with ⟨w, hw⟩
    simp only [next, hw]
    rfl

/-- A root task that is done stays done. -/
theorem done_next (hd : s.phase = .done) {a : Action W} (hg : guard s a) :
    (next s a).phase = .done := by
  cases a with
  | take w =>
      have hq := hg.1
      rw [hd] at hq
      cases hq
  | poll | drop | park | store | shutdown | settle | leave =>
      rcases hg with ⟨w, hw⟩
      rw [hd] at hw
      cases hw
  | wake =>
      simp only [next, State.woken, hd]
  | exit w => exact hd

omit [DecidableEq W] in
/-- Where `finish` has not been executed, it is because of a panic. -/
theorem executed_iff (h : Inv s) : Executed s ↔ ¬ (s.phase = .done ∧ Panicked s) := by
  have hfits := h.fits
  constructor
  · rintro he ⟨hd, hp⟩
    rw [hd] at hfits
    rcases hfits with ⟨-, -, hx⟩ | ⟨-, hx, -⟩
    · rw [Panicked, hx] at hp
      cases hp
    · rw [he hd] at hx
      cases hx
  · intro hn hd
    rw [hd] at hfits
    rcases hfits with ⟨-, hx, -⟩ | ⟨-, -, hx⟩
    · exact hx
    · exact absurd ⟨hd, hx⟩ hn

/-- `finish` is executed once in every state of the run in which the root task has completed and
    its frame has returned, if and only if the frame has not returned yet at the end of the run
    or the root has not panicked. -/
theorem finish_executed_iff {s : State W} {as : List (Action W)} (hi : init s)
    (hl : system.Legal s as) :
    system.Throughout Executed s as ↔
      ((system.run s as).phase = .done → system.Along Returns s as) := by
  have hinv := inv_init hi
  have hnone : ¬ Panicked s := by
    rw [Panicked, hi.2.2.2.2.1]
    nofun
  have hend : Inv (system.run s as) :=
    system.lasting_run (fun _ _ h hg => inv_next h hg) as s hinv hl
  have halong := system.along_iff_of_lasting (C := Returns)
    (I := fun t => Inv t ∧ ¬ Panicked t) (B := fun t => Inv t ∧ Panicked t)
    (fun _ h hb => h.2 hb.2)
    (fun _ _ h hg hr => ⟨inv_next h.1 hg, not_panicked_next h.2 hg hr⟩)
    (fun _ _ h hg hr => ⟨inv_next h.1 hg, panicked_of_step hg hr⟩)
    (fun _ _ h hg => ⟨inv_next h.1 hg, panicked_next h.1 h.2 hg⟩) as s ⟨hinv, hnone⟩ hl
  rw [halong]
  constructor
  · intro ht hd hb
    exact (executed_iff hend).mp (System.throughout_run _ as s ht) ⟨hd, hb.2⟩
  · intro h
    -- What is abandoned stays abandoned, so that the last state tells of all.
    have hnever := system.throughout_not_of_lasting
      (B := fun t => Inv t ∧ t.phase = .done ∧ Panicked t)
      (fun _ _ hb hg =>
        ⟨inv_next hb.1 hg, done_next hb.2.1 hg, panicked_next hb.1 hb.2.2 hg⟩)
      as s hl fun hb => h hb.2.1 ⟨hb.1, hb.2.2⟩
    exact system.throughout_of_throughout (I := Inv)
      (fun t ht hn => (executed_iff ht).mpr fun hb => hn ⟨ht, hb⟩)
      (fun _ _ h hg _ => inv_next h hg) as s hinv hl hnever

/-- After a panic no worker leaves its loop any more, and `run_async` does not return. -/
theorem never_ends {s : State W} (hr : system.Reachable s) (hp : Panicked s)
    {as : List (Action W)} (hl : system.Legal s as) (w : W) :
    (system.run s as).exited w = false := by
  have hinv : Inv s := hr.induct (fun _ hi => inv_init hi) fun _ _ h hg => inv_next h hg
  have hend := system.lasting_run (B := fun t => Inv t ∧ Panicked t)
    (fun _ _ h hg => ⟨inv_next h.1 hg, panicked_next h.1 h.2 hg⟩) as s ⟨hinv, hp⟩ hl
  refine hend.1.stays ?_ w
  have hfits := hend.1.fits
  have hpanic : (system.run s as).ended = some .panicked := hend.2
  cases hph : (system.run s as).phase <;> rw [hph, hpanic] at hfits
  case settling | leaving | done =>
    rcases hfits with ⟨-, -, hx⟩ | ⟨hx, -⟩
    · cases hx
    · exact hx
  all_goals cases hfits.2.2

/-- A pool of one worker. -/
def pool : State Unit where
  phase := .queued
  notified := false
  finished := false
  finishes := 0
  ended := none
  exited _ := false

theorem init_pool : init pool :=
  ⟨rfl, rfl, rfl, rfl, rfl, fun _ => rfl⟩

/-- The root waits once and is woken during the poll. -/
def returnRun : List (Action Unit) :=
  [.take (), .poll .pending, .wake, .park, .take (), .poll .ready, .drop false, .store, .shutdown,
    .settle, .leave, .exit ()]

theorem finish_executed_returned :
    system.Throughout Executed pool returnRun ∧ (system.run pool returnRun).finishes = 1 :=
  ⟨(finish_executed_iff init_pool (by decide)).mpr fun _ => by decide, rfl⟩

/-- The root panics in its first poll. -/
def panicRun : List (Action Unit) :=
  [.take (), .poll .panic, .settle, .leave]

/-- It returns in its first poll, and its destructor panics. -/
def dropRun : List (Action Unit) :=
  [.take (), .poll .ready, .drop true, .settle, .leave]

/-- The root task has completed and its frame has returned, and `finish` has not been
    executed. -/
theorem panic_skips_finish :
    system.Legal pool panicRun ∧ (system.run pool panicRun).phase = .done ∧
      (system.run pool panicRun).finishes = 0 ∧
      ¬ system.Throughout Executed pool panicRun ∧
      system.Legal pool dropRun ∧ (system.run pool dropRun).phase = .done ∧
      (system.run pool dropRun).finishes = 0 := by
  refine ⟨by decide, rfl, rfl, fun h => ?_, by decide, rfl, rfl⟩
  have hx := System.throughout_run _ _ _ h rfl
  cases hx

end RunAsync

end Cmpth

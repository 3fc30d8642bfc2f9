import Cmpth.Core.Places
import Cmpth.Fork.Stackless
import Cmpth.Join.Unwind

/-!
# Who Drives a Task

The invariant of the stackless parallel calls.

As long as `b` is a task, its future is polled only by a worker that has its
token, and the wake word is `PARKED` only while nobody has it. So once the
caller has popped the token, and has thrown it away, nobody else ever gets to
the task again: there is no other token, and no wake makes one, since `b` is
never parked again. That `b` may have been polled before does not matter.

## Main definitions

* `Fit`: The token, the wake word and the polls fit the task's next step.
* `Driven`: The task is driven by its token.
* `Branched`: The caller polls the future itself.
* `TaskOk`: What holds of a task at the stage of its call.
* `Inv`: The invariant.

## Theorems

* `fit_exiting`, `Fit.undone`, `Fit.through`: What fits a task that exits, and one that does not
  yet.
* `Fit.absent`: What has been freed is done, and then the token and the wake word are somebody
  else's.
* `Fit.congr`: The fit is about the polls, the future and the descriptor.
* `Fit.parked`: A parked task has no token and is not being polled.
* `Fit.notify`: A wake that finds the task not parked changes nothing that matters.
* `Fit.waiting`: A token that waits belongs to a task that is not being driven.
* `taskOk_handled`, `taskOk_awaiting`: What holds of a task whose handle is in use.
* `TaskOk.driven`: In which stages the task is driven by its token.
* `TaskOk.replace`: The token and the wake word of a task that is driven are replaced.
* `Driven.fits`, `TaskOk.unmade`: What is kept when the token moves.
* `Driven.restage`: Nor does it matter how far the call is.
* `TaskOk.absent`: What holds of a task that has no descriptor.
* `TaskOk.notify`: A wake that finds the task not parked.
* `TaskOk.token`: A token belongs to a task that is driven by it.
* `TaskOk.shift`: A waiting token is handed on.
* `Inv.unique`: Who has a descriptor has it alone.
* `Inv.used`: A token's descriptor is in use.
* `Inv.others`: The tasks other than one do not notice what happens to its descriptor.
* `Inv.change`: The general form of a step: it changes a task, and the token and the wake word of
  its descriptor, which the task has afterwards or which is free.
* `Inv.owner`: A descriptor that is used is used by one task.
* `Inv.keep`, `Inv.record`, `Inv.freed`: The kinds of steps.
-/

namespace Cmpth

namespace Fork

namespace Stackless

open Join (TaskPc HandlePc JoinState)
open Waker (WakeState)

variable {K W Q D R : Type*}

/-- The token is not with a worker that has begun to poll. -/
def Spot.waiting : Spot K W Q → Bool
  | .driven _ => false
  | .queued _ | .woken | .entered _ | .held _ => true

/-- The task is parked, or its token waits to be driven. -/
def Waits (p : Option (Spot K W Q)) (x : WakeState) : Prop :=
  (p = none ∧ x = .parked) ∨ (x ≠ .parked ∧ ∃ y, p = some y ∧ y.waiting = true)

/-- The future is done and nobody will come back to it. -/
structure Through (t : Task W D R) (p : Option (Spot K W Q)) (x : WakeState) : Prop where
  inside : t.inside = []
  ready : t.ready = 1
  value : t.bVal ≠ none
  quiet : t.frees = 0 → p = none ∧ x ≠ .parked

/-- The task is not done. -/
structure Undone (t : Task W D R) : Prop where
  frees : t.frees = 0
  ready : t.ready = 0

/-- The token, the wake word and the polls fit the task's next step. -/
def Fit (t : Task W D R) (p : Option (Spot K W Q)) (x : WakeState) : TaskPc D → Prop
  | .idle => Undone t ∧ t.inside = [] ∧ Waits p x
  | .running => Undone t ∧ x ≠ .parked ∧ ∃ w, p = some (.driven w) ∧ t.inside = [some w]
  | .dropWaker false | .park =>
      Undone t ∧ x ≠ .parked ∧ t.inside = [] ∧ ∃ w, p = some (.driven w)
  | .handoff | .abandoned | .write _ | .commit _ | .swap | .resume _ | .wake _ | .claim _
  | .dropResult _ | .free _ | .dropWaker true | .done _ | .doubleExit => Through t p x

/-- The task is driven by its token, and its end is the join protocol's. -/
structure Driven [DecidableEq D] (t : Task W D R) (p : Option (Spot K W Q)) (x : WakeState) :
    Prop where
  join : Join.Inv (words D) t.join
  kind : t.join.kind = .async
  frees : t.frees = t.join.frees.length
  fit : Fit t p x t.join.task
  slot : t.join.written = true → t.join.task.exiting = true ∧ t.slot = t.bVal

/-- The caller has the future, and nobody else can get to it. -/
structure Branched (t : Task W D R) (p : Option (Spot K W Q)) (x : WakeState) : Prop where
  frees : t.frees = 0
  task : t.join.task = .idle
  gone : p = none
  unparked : x ≠ .parked

/-- The caller had the future, and has freed it. -/
structure Gone (t : Task W D R) : Prop where
  frees : t.frees = 1
  task : t.join.task = .idle
  inside : t.inside = []

/-- The handle is not being dropped. -/
def awaited : HandlePc (JoinState D) D → Bool
  | .load .abandon | .exchange .abandon _ => false
  | _ => true

/-- The result that has been taken is that of `b`. -/
def Result (t : Task W D R) (rb : Option R) : Prop :=
  rb = t.bVal ∧ t.bVal ≠ none ∧ t.ready = 1 ∧ t.frees = 1

/-- What holds of a task at the stage of its call. -/
def TaskOk [DecidableEq D] (t : Task W D R) (p : Option (Spot K W Q)) (x : WakeState) : Prop :=
  match t.stage with
  | .unmade => t.join.task = .idle ∧ t.inside = [] ∧ t.ready = 0 ∧ t.frees = 0
  | .spawned | .dropping => Driven t p x
  | .pending => Driven t p x ∧ t.join.handle = .held
  | .popping ra | .popped ra => (Driven t p x ∧ t.join.handle = .held) ∧ t.aVal = some ra
  | .branch ra => Branched t p x ∧ t.aVal = some ra ∧ t.inside = [] ∧ t.ready = 0
  | .polling ra => Branched t p x ∧ t.aVal = some ra ∧ t.inside = [none] ∧ t.ready = 0
  | .freeing ra rb =>
      Branched t p x ∧ t.aVal = some ra ∧ t.inside = [] ∧ t.ready = 1 ∧ t.bVal = some rb
  | .awaiting ra rb =>
      Driven t p x ∧ t.aVal = some ra ∧ awaited t.join.handle = true ∧
        (t.join.handle = .reclaim → rb = t.bVal) ∧ (t.join.handle = .gone → Result t rb)
  | .returned ra rb => (Driven t p x ∨ Gone t) ∧ t.aVal = some ra ∧ Result t rb
  | .dropped => Driven t p x ∧ t.join.handle = .held ∨ Gone t ∧ t.ready = 0

/-- The descriptor is the task's. -/
def Uses (t : Task W D R) (d : D) : Prop :=
  t.stage ≠ .unmade ∧ t.frees = 0 ∧ t.desc = d

/-- The tokens, the descriptors and the tasks fit together. -/
structure Inv [DecidableEq D] (s : State K W Q D R) (place : D → Option (Spot K W Q)) : Prop where
  placed : Placed s.tokens place
  body : ∀ d k, s.body d = some k ↔ Uses (s.task k) d
  empty : ∀ d, s.body d = none → place d = none ∧ s.wake d ≠ .parked
  tasks : ∀ k, TaskOk (s.task k) (place (s.task k).desc) (s.wake (s.task k).desc)

section Fit

variable {t t' : Task W D R} {p p' : Option (Spot K W Q)} {x x' : WakeState} {pc : TaskPc D}

theorem fit_exiting (he : pc.exiting = true) : Fit t p x pc ↔ Through t p x := by
  cases pc with
  | idle | running | park => cases he
  | dropWaker r =>
      cases r with
      | true => exact Iff.rfl
      | false => cases he
  | handoff | abandoned | write j | commit j | swap | resume j | wake b | claim j | dropResult r
  | free r | done r | doubleExit => exact Iff.rfl

theorem Fit.undone (h : Fit t p x pc) (he : pc.exiting = false) : Undone t := by
  cases pc with
  | idle | running | park => exact h.1
  | dropWaker r =>
      cases r with
      | true => cases he
      | false => exact h.1
  | handoff | abandoned | write j | commit j | swap | resume j | wake b | claim j | dropResult r
  | free r | done r | doubleExit => cases he

theorem Fit.through (h : Fit t p x pc) (he : pc.exiting = true) : Through t p x :=
  (fit_exiting he).mp h

/-- What has been freed is done, and then the token and the wake word are
    somebody else's. -/
theorem Fit.absent (h : Fit t p x pc) (hf : t.frees ≠ 0) : Fit t p' x' pc := by
  cases he : pc.exiting with
  | true =>
      have ht := h.through he
      exact (fit_exiting he).mpr ⟨ht.inside, ht.ready, ht.value, fun h0 => absurd h0 hf⟩
  | false => exact absurd (h.undone he).frees hf

/-- The fit is about the polls, the future and the descriptor. -/
theorem Fit.congr (h : Fit t p x pc) (hin : t'.inside = t.inside) (hr : t'.ready = t.ready)
    (hb : t'.bVal = t.bVal) (hf : t'.frees = t.frees) : Fit t' p x pc := by
  -- Up to the exit the task is undone; from the exit on it is through.
  cases he : pc.exiting with
  | true =>
      have ht := h.through he
      refine (fit_exiting he).mpr ⟨hin.trans ht.inside, hr.trans ht.ready, ?_, ?_⟩
      · rw [hb]
        exact ht.value
      · rw [hf]
        exact ht.quiet
  | false =>
      have hu : Undone t' := ⟨hf.trans (h.undone he).frees, hr.trans (h.undone he).ready⟩
      cases pc with
      | idle => exact ⟨hu, hin.trans h.2.1, h.2.2⟩
      | running =>
          obtain ⟨-, hx, w, hp, hi⟩ := h
          exact ⟨hu, hx, w, hp, hin.trans hi⟩
      | park => exact ⟨hu, h.2.1, hin.trans h.2.2.1, h.2.2.2⟩
      | dropWaker r =>
          cases r with
          | true => cases he
          | false => exact ⟨hu, h.2.1, hin.trans h.2.2.1, h.2.2.2⟩
      | handoff | abandoned | write j | commit j | swap | resume j | wake b | claim j
      | dropResult r | free r | done r | doubleExit => cases he

/-- A parked task has no token and is not being polled. -/
theorem Fit.parked (h : Fit t p .parked pc) (hf : t.frees = 0) :
    pc = .idle ∧ p = none ∧ Undone t ∧ t.inside = [] := by
  cases pc with
  | idle =>
      obtain ⟨hu, hin, hw⟩ := h
      rcases hw with ⟨hp, -⟩ | ⟨hx, -⟩
      · exact ⟨rfl, hp, hu, hin⟩
      · exact absurd rfl hx
  | running | park => exact absurd rfl h.2.1
  | dropWaker r =>
      cases r with
      | true => exact absurd rfl (h.quiet hf).2
      | false => exact absurd rfl h.2.1
  | handoff | abandoned | write j | commit j | swap | resume j | wake b | claim j | dropResult r
  | free r | done r | doubleExit => exact absurd rfl (h.quiet hf).2

/-- A wake that finds the task not parked changes nothing that matters. -/
theorem Fit.notify (h : Fit t p x pc) (hx : x ≠ .parked) (hx' : x' ≠ .parked) :
    Fit t p x' pc := by
  cases pc with
  | idle =>
      obtain ⟨hu, hin, hw⟩ := h
      rcases hw with ⟨-, hp⟩ | ⟨-, hy⟩
      · exact absurd hp hx
      · exact ⟨hu, hin, Or.inr ⟨hx', hy⟩⟩
  | running => exact ⟨h.1, hx', h.2.2⟩
  | park => exact ⟨h.1, hx', h.2.2⟩
  | dropWaker r =>
      cases r with
      | true => exact ⟨h.inside, h.ready, h.value, fun hf => ⟨(h.quiet hf).1, hx'⟩⟩
      | false => exact ⟨h.1, hx', h.2.2⟩
  | handoff | abandoned | write j | commit j | swap | resume j | wake b | claim j | dropResult r
  | free r | done r | doubleExit =>
      exact ⟨h.inside, h.ready, h.value, fun hf => ⟨(h.quiet hf).1, hx'⟩⟩

/-- A token that waits belongs to a task that is not being driven. -/
theorem Fit.waiting {y : Spot K W Q} (h : Fit t (some y) x pc) (hf : t.frees = 0)
    (hy : y.waiting = true) : pc = .idle ∧ Undone t ∧ t.inside = [] ∧ x ≠ .parked := by
  -- Only `idle` leaves the token a place to wait in; in the others a worker has it.
  cases pc with
  | idle =>
      obtain ⟨hu, hin, hw⟩ := h
      rcases hw with ⟨hp, -⟩ | ⟨hx, -⟩
      · cases hp
      · exact ⟨rfl, hu, hin, hx⟩
  | running =>
      obtain ⟨-, -, w, hp, -⟩ := h
      rw [Option.some.inj hp] at hy
      cases hy
  | park =>
      obtain ⟨-, -, -, w, hp⟩ := h
      rw [Option.some.inj hp] at hy
      cases hy
  | dropWaker r =>
      cases r with
      | true => exact nomatch (h.quiet hf).1
      | false =>
          obtain ⟨-, -, -, w, hp⟩ := h
          rw [Option.some.inj hp] at hy
          cases hy
  | handoff | abandoned | write j | commit j | swap | resume j | wake b | claim j | dropResult r
  | free r | done r | doubleExit => exact nomatch (h.quiet hf).1

end Fit

section TaskOk

variable [DecidableEq D] {t : Task W D R} {p p' : Option (Spot K W Q)} {x x' : WakeState}

theorem taskOk_handled (hst : t.stage = .spawned ∨ t.stage = .dropping) :
    TaskOk t p x ↔ Driven t p x := by
  unfold TaskOk
  rcases hst with hst | hst <;> rw [hst]

theorem taskOk_awaiting {ra : R} {rb : Option R} (hst : t.stage = .awaiting ra rb) :
    TaskOk t p x ↔ Driven t p x ∧ t.aVal = some ra ∧ awaited t.join.handle = true ∧
      (t.join.handle = .reclaim → rb = t.bVal) ∧ (t.join.handle = .gone → Result t rb) := by
  unfold TaskOk
  rw [hst]

/-- In which stages the task is driven by its token. -/
theorem TaskOk.driven (h : TaskOk t p x) (hm : t.stage ≠ .unmade) :
    Driven t p x ∨ Branched t p x ∨ Gone t := by
  unfold TaskOk at h
  -- In the stages where the caller polls the branch itself, the task is not driven by its token.
  cases hst : t.stage with
  | unmade => exact absurd hst hm
  | spawned | dropping =>
      rw [hst] at h
      exact Or.inl h
  | pending | awaiting ra rb =>
      rw [hst] at h
      exact Or.inl h.1
  | popping ra | popped ra =>
      rw [hst] at h
      exact Or.inl h.1.1
  | branch ra | polling ra | freeing ra rb =>
      rw [hst] at h
      exact Or.inr (Or.inl h.1)
  | returned ra rb =>
      rw [hst] at h
      exact h.1.imp_right Or.inr
  | dropped =>
      rw [hst] at h
      rcases h with h | h
      · exact Or.inl h.1
      · exact Or.inr (Or.inr h.1)

/-- The token and the wake word of a task that is driven are replaced. -/
theorem TaskOk.replace (h : TaskOk t p x) (hd : Driven t p x → Driven t p' x')
    (hb : Branched t p x → Branched t p' x') : TaskOk t p' x' := by
  unfold TaskOk at h ⊢
  -- Each stage speaks of the token by one of the two only.
  cases hst : t.stage with
  | unmade =>
      rw [hst] at h
      exact h
  | spawned | dropping =>
      rw [hst] at h
      exact hd h
  | pending =>
      rw [hst] at h
      exact ⟨hd h.1, h.2⟩
  | popping ra | popped ra =>
      rw [hst] at h
      exact ⟨⟨hd h.1.1, h.1.2⟩, h.2⟩
  | branch ra | polling ra | freeing ra rb =>
      rw [hst] at h
      exact ⟨hb h.1, h.2⟩
  | awaiting ra rb =>
      rw [hst] at h
      exact ⟨hd h.1, h.2⟩
  | returned ra rb =>
      rw [hst] at h
      exact ⟨h.1.imp_left hd, h.2⟩
  | dropped =>
      rw [hst] at h
      exact h.imp_left fun hh => ⟨hd hh.1, hh.2⟩

theorem Driven.fits (h : Driven t p x) (hf : Fit t p' x' t.join.task) : Driven t p' x' :=
  ⟨h.join, h.kind, h.frees, hf, h.slot⟩

/-- Nor does it matter how far the call is. -/
theorem Driven.restage (h : Driven t p x) (st : Stage R) (o : Option R) :
    Driven { t with stage := st, aVal := o } p x :=
  ⟨h.join, h.kind, h.frees, h.fit.congr rfl rfl rfl rfl, h.slot⟩

/-- What holds of a task that has no descriptor does not depend on whose the
    descriptor is by now. -/
theorem TaskOk.absent (h : TaskOk t p x) (hf : t.frees ≠ 0) : TaskOk t p' x' :=
  h.replace (fun hd => hd.fits (hd.fit.absent hf)) fun hb => absurd hb.frees hf

theorem TaskOk.unmade (h : TaskOk t p x) (hm : t.stage = .unmade) : TaskOk t p' x' := by
  unfold TaskOk at h ⊢
  rw [hm] at h ⊢
  exact h

/-- A wake that finds the task not parked. -/
theorem TaskOk.notify (h : TaskOk t p x) (hx : x ≠ .parked) (hx' : x' ≠ .parked) :
    TaskOk t p x' :=
  h.replace (fun hd => hd.fits (hd.fit.notify hx hx')) fun hb => ⟨hb.frees, hb.task, hb.gone, hx'⟩

/-- A token belongs to a task that is driven by it. -/
theorem TaskOk.token {y : Spot K W Q} (h : TaskOk t (some y) x) (hm : t.stage ≠ .unmade)
    (hf : t.frees = 0) : Driven t (some y) x := by
  rcases h.driven hm with hd | hb | hg
  · exact hd
  · exact nomatch hb.gone
  · exact absurd (hf.symm.trans hg.frees) (by simp)

/-- A waiting token is handed on. -/
theorem TaskOk.shift {y z : Spot K W Q} (h : TaskOk t (some y) x) (hm : t.stage ≠ .unmade)
    (hf : t.frees = 0) (hy : y.waiting = true) (hz : z.waiting = true) : TaskOk t (some z) x := by
  obtain ⟨hpc, hu, hin, hx⟩ := (h.token hm hf).fit.waiting hf hy
  refine h.replace (fun hd => hd.fits ?_) fun hb => nomatch hb.gone
  rw [hpc]
  exact ⟨hu, hin, Or.inr ⟨hx, z, rfl, hz⟩⟩

end TaskOk

section Steps

variable [DecidableEq K] [DecidableEq W] [DecidableEq Q] [DecidableEq D]
variable {s s' : State K W Q D R}
variable {place : D → Option (Spot K W Q)} {k : K} {d : D} {t : Task W D R}
variable {p : Option (Spot K W Q)} {x : WakeState}

omit [DecidableEq K] [DecidableEq W] [DecidableEq Q] in
/-- Who has a descriptor has it alone. -/
theorem Inv.unique (h : Inv s place) {k k' : K} (hu : Uses (s.task k) d)
    (hu' : Uses (s.task k') d) : k = k' :=
  Option.some.inj (((h.body d k).mpr hu).symm.trans ((h.body d k').mpr hu'))

omit [DecidableEq K] [DecidableEq W] [DecidableEq Q] in
/-- A token's descriptor is in use. -/
theorem Inv.used (h : Inv s place) {y : Spot K W Q} (hp : place d = some y) :
    ∃ k, Uses (s.task k) d := by
  cases hb : s.body d with
  | none => exact absurd ((h.empty d hb).1.symm.trans hp) (by simp)
  | some k => exact ⟨k, (h.body d k).mp hb⟩

omit [DecidableEq K] [DecidableEq W] [DecidableEq Q] in
/-- The tasks other than one do not notice what happens to its descriptor. -/
theorem Inv.others (h : Inv s place) (howner : ∀ k', Uses (s.task k') d → k' = k) {k' : K}
    (hne : k' ≠ k) :
    TaskOk (s.task k') (Function.update place d p (s.task k').desc)
      (Function.update s.wake d x (s.task k').desc) := by
  by_cases hd : (s.task k').desc = d
  · have hok := h.tasks k'
    by_cases hm : (s.task k').stage = .unmade
    · exact hok.unmade hm
    · by_cases hf : (s.task k').frees = 0
      · exact absurd (howner k' ⟨hm, hf, hd⟩) hne
      · exact hok.absent hf
  · rw [Function.update_of_ne hd, Function.update_of_ne hd]
    exact h.tasks k'

omit [DecidableEq W] [DecidableEq Q] in
/-- The general form of a step: it changes a task, and the token and the wake
    word of its descriptor, which the task has afterwards or which is free. -/
theorem Inv.change (h : Inv s place) (howner : ∀ k', Uses (s.task k') d → k' = k)
    (hold : ∀ d', Uses (s.task k) d' → d' = d) {b : Option K}
    (htask : s'.task = Function.update s.task k t)
    (hbody : s'.body = Function.update s.body d b) (hwake : s'.wake = Function.update s.wake d x)
    (hplaced : Placed s'.tokens (Function.update place d p)) (hdesc : t.desc = d)
    (hb : b = some k ∧ Uses t d ∨ b = none ∧ t.frees ≠ 0 ∧ p = none ∧ x ≠ .parked)
    (hok : TaskOk t p x) : Inv s' (Function.update place d p) where
  placed := hplaced
  body := by
    intro d' k'
    rw [htask, hbody]
    -- The task that changes keeps its descriptor, so the others' are not `d`.
    by_cases hk : k' = k
    · subst hk
      rw [Function.update_self]
      -- Of the descriptors only `d` has another owner, or none.
      by_cases hd : d' = d
      · subst hd
        rw [Function.update_self]
        rcases hb with ⟨hb, hu⟩ | ⟨hb, hf, -⟩
        · exact ⟨fun _ => hu, fun _ => hb⟩
        · rw [hb]
          exact ⟨(by rintro ⟨⟩), fun hu => absurd hu.2.1 hf⟩
      · -- The task has had no other descriptor, and gets no other.
        rw [Function.update_of_ne hd, h.body]
        refine ⟨fun hu => absurd (hold d' hu) hd, fun hu => ?_⟩
        exact absurd (hu.2.2.symm.trans hdesc) hd
    · rw [Function.update_of_ne hk]
      by_cases hd : d' = d
      · subst hd
        rw [Function.update_self]
        refine ⟨fun he => ?_, fun hu => absurd (howner k' hu) hk⟩
        rcases hb with ⟨hb, -⟩ | ⟨hb, -⟩
        · exact absurd (Option.some.inj (he.symm.trans hb)) hk
        · exact absurd (hb.symm.trans he) (by rintro ⟨⟩)
      · rw [Function.update_of_ne hd]
        exact h.body d' k'
  empty := by
    intro d' hn
    rw [hbody] at hn
    rw [hwake]
    by_cases hd : d' = d
    · subst hd
      rw [Function.update_self] at hn
      rw [Function.update_self, Function.update_self]
      rcases hb with ⟨hb, -⟩ | ⟨-, -, hq⟩
      · exact absurd (hb.symm.trans hn) (by rintro ⟨⟩)
      · exact hq
    · rw [Function.update_of_ne hd] at hn
      rw [Function.update_of_ne hd, Function.update_of_ne hd]
      exact h.empty d' hn
  tasks := by
    intro k'
    rw [htask, hwake]
    by_cases hk : k' = k
    · subst hk
      rw [Function.update_self, hdesc, Function.update_self, Function.update_self]
      exact hok
    · rw [Function.update_of_ne hk]
      exact h.others howner hk

omit [DecidableEq K] [DecidableEq W] [DecidableEq Q] in
theorem Inv.owner (h : Inv s place) (hu : Uses (s.task k) d) :
    ∀ k', Uses (s.task k') d → k' = k :=
  fun _ hu' => h.unique hu' hu

omit [DecidableEq W] [DecidableEq Q] in
/-- A step of a task that keeps its descriptor. -/
theorem Inv.keep (h : Inv s place) (hu : Uses (s.task k) d)
    (htask : s'.task = Function.update s.task k t) (hbody : s'.body = s.body)
    (hwake : s'.wake = Function.update s.wake d x)
    (hplaced : Placed s'.tokens (Function.update place d p)) (hu' : Uses t d)
    (hok : TaskOk t p x) : Inv s' (Function.update place d p) := by
  have hb := (h.body d k).mpr hu
  refine h.change (h.owner hu) (fun d' hd' => hd'.2.2.symm.trans hu.2.2) htask ?_ hwake hplaced
    hu'.2.2 (Or.inl ⟨rfl, hu'⟩) hok
  rw [hbody, ← hb, Function.update_eq_self]

omit [DecidableEq W] [DecidableEq Q] in
/-- A step that only changes the record of a task. -/
theorem Inv.record (h : Inv s place) (hm : (s.task k).stage ≠ .unmade) (hm' : t.stage ≠ .unmade)
    (hdesc : t.desc = (s.task k).desc) (hfrees : t.frees = (s.task k).frees)
    (hok : TaskOk t (place (s.task k).desc) (s.wake (s.task k).desc)) :
    Inv (s.set k t) place := by
  -- The task keeps its descriptor.
  have huses : ∀ d, Uses t d ↔ Uses (s.task k) d := by
    intro d
    rw [Uses, Uses, hdesc, hfrees]
    exact and_congr_left fun _ => iff_of_true hm' hm
  refine ⟨h.placed, fun d k' => ?_, h.empty, fun k' => ?_⟩ <;> simp only [State.set]
  · by_cases hk : k' = k
    · subst hk
      rw [Function.update_self, huses]
      exact h.body d k'
    · rw [Function.update_of_ne hk]
      exact h.body d k'
  · by_cases hk : k' = k
    · subst hk
      rw [Function.update_self, hdesc]
      exact hok
    · rw [Function.update_of_ne hk]
      exact h.tasks k'

omit [DecidableEq W] [DecidableEq Q] in
/-- The descriptor of a task that nobody has a token of is freed. -/
theorem Inv.freed (h : Inv s place) (hu : Uses (s.task k) (s.task k).desc)
    (hdesc : t.desc = (s.task k).desc) (hp : place (s.task k).desc = none)
    (hx : s.wake (s.task k).desc ≠ .parked)
    (hok : TaskOk { t with frees := t.frees + 1 } (place (s.task k).desc)
      (s.wake (s.task k).desc)) :
    Inv (s.free k t) place := by
  have hself : Function.update place (s.task k).desc (place (s.task k).desc) = place :=
    Function.update_eq_self ..
  rw [← hself]
  refine h.change (b := none) (x := s.wake (s.task k).desc) (h.owner hu)
    (fun d' hd' => hd'.2.2.symm) rfl ?_ ?_ ?_ hdesc (Or.inr ⟨rfl, Nat.succ_ne_zero _, hp, hx⟩) hok
  · rw [← hdesc]
    rfl
  · rw [Function.update_eq_self]
    rfl
  · rw [hself]
    exact h.placed

end Steps

end Stackless

end Fork

end Cmpth

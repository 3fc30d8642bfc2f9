import Cmpth.Core.System
import Cmpth.Waker.Word

/-!
# Awaiting a Handle

`JoinHandle::poll` from async code, with any `Context`. Inside the poll of an async task it
registers the address of that task's descriptor; elsewhere it boxes the waker it is given.
Each registration replaces the one before, of either kind, and the task that completes
takes the last one.

What a waker stands for is the task whose whole future it wakes. A combinator hands its
parts wakers of its own, which stand for none: to wake the task that it runs in is not to
wake the part. The fast path takes the waker for that task's own.

The awaited task is one, and so is its handle, which is not dropped. Other tasks are not
descriptors here: none is used again. Whoever polls one may return at any time.

## Main definitions

* `Word`: What the join word says.
* `State`, `Action`, `system`: The awaited task, its handle and the tasks that poll it.
* `Due`: The runtime has polled the task since it was told, or is going to.
* `Honoured`: The waker is woken, or the future it stands for is polled.

## Theorems

* `wakeTask_frame`: A wake changes nothing but the task.
* `wakeTask_cases`: What a wake makes of a task, by its wake word.
* `coherent_wakeTask`: A wake keeps a task's life and its wake word together.
* `due_wakeTask`: Whoever has been told is going to be polled.
* `due_wakeTask_of_due`: Another wake takes nothing back.
* `inv_wake`, `inv_complete`: The wake of a task, and the end of the awaited one.
* `inv_step`: A step of a poll.
* `inv_settled`: The awaited task has settled, having woken or told whom it read.
* `wakeWaker_frame`: A foreign waker wakes the task it stands for, if any.
* `inv_settle`: The awaited task wakes the waker, or claims the joiner, that was registered last.
* `inv_task`: A step of a task, which is polled again before it can miss what it was told.
* `inv_next`: Every step keeps the invariant.
* `inv_init`, `inv_reachable`: The invariant holds in every state.
* `honoured_iff`: The contract is kept exactly when the fast path was not taken with another's
  waker.
* `honoured_own`: A task that polls with its own waker.
* `part_not_woken`: Polled with the waker of a part of the task's future, the handle forgets it: the
  task is polled again, and the part is not woken.
-/

namespace Cmpth

namespace Join

namespace Awaited

open Waker (WakeState)

/-- What the join word says: nobody waits, a boxed waker, or the address of a task. -/
inductive Word (J K : Type*) where
  | running
  | finished
  | waker (k : K)
  | joiner (j : J)
  deriving DecidableEq, Repr

/-- Where a poll of the handle is, with the `polling_async` it has read, which is none
    outside of a worker too, and the waker of its `Context`. -/
inductive Pc (J K : Type*) where
  | idle
  /-- About to load the join word. -/
  | loading (joiner : Option J) (k : K)
  /-- About to exchange what it has loaded, unless the task has finished. -/
  | swapping (joiner : Option J) (k : K) (cur : Word J K)
  deriving DecidableEq, Repr

/-- Where the awaited task is. -/
inductive Exit (J K : Type*) where
  | running
  /-- `finish_and_settle` has swapped the word and read this. -/
  | settling (w : Word J K)
  | settled
  deriving DecidableEq, Repr

/-- Where an async task is. -/
inductive Life where
  /-- In a run queue, or handed to whoever polls it next. -/
  | queued
  | polling
  | parked
  /-- Its future is done. -/
  | done
  deriving DecidableEq, Repr

/-- `last` has what the last poll of the handle read, if it returned `Pending`. `woken` is
    the waker the awaited task woke, `told` the joiner it claimed, and `polled` the tasks
    that have begun a poll since; these three are history. -/
structure State (J K : Type*) where
  word : Word J K
  pc : Pc J K
  exit : Exit J K
  last : Option (Option J × K)
  ready : Bool
  wake : J → WakeState
  life : J → Life
  woken : Option K
  told : Option J
  polled : J → Bool

/-- The steps of `JoinHandle::poll`, of the awaited task and of the runtime. -/
inductive Action (J K : Type*) where
  /-- `JoinHandle::poll`, by whoever polls `joiner`. -/
  | poll (joiner : Option J) (k : K)
  /-- The next step of the poll. -/
  | step (spurious : Bool)
  /-- The awaited task is done; the swap in `finish_and_settle`. -/
  | complete
  /-- What the word that was read asks for. -/
  | settle
  /-- A wake of the task by anybody else. -/
  | wake (j : J)
  /-- The runtime polls the task. -/
  | begins (j : J)
  /-- Its poll returns `Pending`; `park_after_poll`. -/
  | pend (j : J)
  /-- Its poll returns `Ready`; `mark_idle`. -/
  | finish (j : J)
  deriving DecidableEq, Repr

section

variable {J K : Type*} [DecidableEq J] [DecidableEq K]

/-- What a poll stores: the descriptor that is being polled, or the boxed waker. -/
def registration : Option J → K → Word J K
  | some j, _ => .joiner j
  | none, k => .waker k

/-- `try_wake_state` on the task, and the push of one that is claimed. -/
def State.wakeTask (s : State J K) (j : J) : State J K :=
  match s.wake j with
  | .polling => { s with wake := Function.update s.wake j .notified }
  | .parked =>
      { s with
        wake := Function.update s.wake j .polling
        life := Function.update s.life j .queued }
  | .notified | .idle => s

/-- `try_register_async_joiner`, `try_register_waker`: a load, and exchanges until one
    succeeds or the task has finished. -/
def State.stepPoll (s : State J K) (spurious : Bool) : State J K :=
  match s.pc with
  | .idle => s
  | .loading joiner k => { s with pc := .swapping joiner k s.word }
  | .swapping joiner k cur =>
      if cur = .finished then
        { s with
          pc := .idle
          ready := true }
      else if s.word = cur ∧ spurious = false then
        { s with
          word := registration joiner k
          pc := .idle
          last := some (joiner, k) }
      else { s with pc := .swapping joiner k s.word }

/-- `wake` of a waker, which is `try_wake_state` if it stands for a task. -/
def State.wakeWaker (stands : K → Option J) (s : State J K) (k : K) : State J K :=
  match stands k with
  | some j => s.wakeTask j
  | none => s

/-- From here on `polled` counts. -/
def State.forget (s : State J K) : State J K :=
  { s with polled := fun _ => false }

/-- The match in `finish_and_settle`. -/
def State.settle (stands : K → Option J) (s : State J K) : State J K :=
  match s.exit with
  | .settling (.waker k) =>
      { s.forget.wakeWaker stands k with
        exit := .settled
        woken := some k }
  | .settling (.joiner j) =>
      { s.forget.wakeTask j with
        exit := .settled
        told := some j }
  | .settling .running | .settling .finished => { s.forget with exit := .settled }
  | .running | .settled => s

/-- What an action does. -/
def next (stands : K → Option J) (s : State J K) : Action J K → State J K
  | .poll joiner k =>
      { s with
        pc := .loading joiner k
        last := none }
  | .step spurious => s.stepPoll spurious
  | .complete =>
      { s with
        word := .finished
        exit := .settling s.word }
  | .settle => s.settle stands
  | .wake j => s.wakeTask j
  | .begins j =>
      { s with
        wake := Function.update s.wake j .polling
        life := Function.update s.life j .polling
        polled := Function.update s.polled j true }
  | .pend j =>
      if s.wake j = .notified then
        { s with
          wake := Function.update s.wake j .polling
          life := Function.update s.life j .queued }
      else
        { s with
          wake := Function.update s.wake j .parked
          life := Function.update s.life j .parked }
  | .finish j =>
      { s with
        wake := Function.update s.wake j .idle
        life := Function.update s.life j .done }

/-- The task settles what it has read. -/
def Exit.Settling : Exit J K → Prop
  | .settling _ => True
  | .running | .settled => False

instance : DecidablePred (Exit.Settling (J := J) (K := K))
  | .settling _ => isTrue trivial
  | .running | .settled => isFalse id

/-- When an action can be taken. -/
def guard (s : State J K) : Action J K → Prop
  | .poll joiner _ => s.pc = .idle ∧ s.ready = false ∧ ∀ j ∈ joiner, s.life j = .polling
  | .step _ => s.pc ≠ .idle
  | .complete => s.exit = .running
  | .settle => s.exit.Settling
  | .wake _ => True
  | .begins j => s.life j = .queued
  | .pend j | .finish j => s.life j = .polling

/-- The awaited task is spawned, and nobody has polled its handle. -/
def init (s : State J K) : Prop :=
  s.word = .running ∧ s.pc = .idle ∧ s.exit = .running ∧ s.last = none ∧ s.ready = false ∧
    (∀ j, s.wake j = .idle ∧ s.life j = .queued) ∧ s.woken = none ∧ s.told = none

/-- The awaited task, its handle and the tasks that poll it, as a guarded transition
    system. -/
def system (stands : K → Option J) : System (State J K) (Action J K) where
  init := init
  guard := guard
  next := next stands

instance (stands : K → Option J) (s : State J K) :
    ∀ a, Decidable ((system stands).guard s a)
  | .poll joiner _ =>
      inferInstanceAs
        (Decidable (s.pc = .idle ∧ s.ready = false ∧ ∀ j ∈ joiner, s.life j = .polling))
  | .step _ => inferInstanceAs (Decidable (s.pc ≠ .idle))
  | .complete => inferInstanceAs (Decidable (s.exit = .running))
  | .settle => inferInstanceAs (Decidable s.exit.Settling)
  | .wake _ => isTrue trivial
  | .begins j => inferInstanceAs (Decidable (s.life j = .queued))
  | .pend j | .finish j => inferInstanceAs (Decidable (s.life j = .polling))

end

section

-- The proofs take these apart in parallel: their equations are made here, once.
attribute [local simp] next

end

section

variable {J K : Type*}

/-- The runtime has polled the task since, or is going to; or its future is done. -/
def State.Due (s : State J K) (j : J) : Prop :=
  s.polled j = true ∨ s.life j = .queued ∨ s.life j = .polling ∧ s.wake j = .notified ∨
    s.life j = .done

/-- The awaited task has woken the waker, or has told the task that it stands for, which
    the runtime polls. -/
def Honoured (stands : K → Option J) (s : State J K) (k : K) : Prop :=
  s.woken = some k ∨ ∃ j, stands k = some j ∧ s.told = some j ∧ s.Due j

/-- What the awaited task finds of the last poll that returned `Pending`. -/
def Kept (s : State J K) (joiner : Option J) (k : K) : Prop :=
  match s.exit with
  | .running => s.word = registration joiner k
  | .settling w => w = registration joiner k
  | .settled =>
      match joiner with
      | some j => s.told = some j ∧ s.woken = none
      | none => s.woken = some k

/-- The wake word of a task goes with where it is. -/
def Coherent (life : Life) (wake : WakeState) : Prop :=
  match life with
  | .queued => True
  | .polling => wake = .polling ∨ wake = .notified
  | .parked => wake = .parked
  | .done => wake = .idle

/-- The invariant. -/
structure Inv (s : State J K) : Prop where
  finished : s.word = .finished ↔ s.exit ≠ .running
  kept : ∀ joiner k, s.last = some (joiner, k) → Kept s joiner k
  coherent : ∀ j, Coherent (s.life j) (s.wake j)
  fresh : s.exit ≠ .settled → s.woken = none ∧ s.told = none
  due : ∀ j, s.told = some j → s.Due j

end

section

variable {J K : Type*} [DecidableEq J] [DecidableEq K] {s s' : State J K} {stands : K → Option J}

omit [DecidableEq K] in
/-- A wake changes nothing but the task. -/
theorem wakeTask_frame (s : State J K) (j : J) :
    (s.wakeTask j).word = s.word ∧ (s.wakeTask j).pc = s.pc ∧ (s.wakeTask j).exit = s.exit ∧
      (s.wakeTask j).last = s.last ∧ (s.wakeTask j).woken = s.woken ∧
      (s.wakeTask j).told = s.told ∧ (s.wakeTask j).polled = s.polled := by
  unfold State.wakeTask
  split <;> exact ⟨rfl, rfl, rfl, rfl, rfl, rfl, rfl⟩

omit [DecidableEq K] in
/-- What a wake makes of a task, by its wake word. -/
theorem wakeTask_cases (s : State J K) (j : J) :
    (s.wake j = .polling ∧ (s.wakeTask j).wake = Function.update s.wake j .notified ∧
        (s.wakeTask j).life = s.life) ∨
      (s.wake j = .parked ∧ (s.wakeTask j).wake = Function.update s.wake j .polling ∧
        (s.wakeTask j).life = Function.update s.life j .queued) ∨
      (s.wake j = .notified ∨ s.wake j = .idle) ∧ (s.wakeTask j).wake = s.wake ∧
        (s.wakeTask j).life = s.life := by
  unfold State.wakeTask
  cases hwake : s.wake j with
  | polling => exact .inl ⟨rfl, rfl, rfl⟩
  | parked => exact .inr (.inl ⟨rfl, rfl, rfl⟩)
  | notified => exact .inr (.inr ⟨.inl rfl, rfl, rfl⟩)
  | idle => exact .inr (.inr ⟨.inr rfl, rfl, rfl⟩)

omit [DecidableEq K] in
theorem coherent_wakeTask (h : ∀ j, Coherent (s.life j) (s.wake j)) (j i : J) :
    Coherent ((s.wakeTask j).life i) ((s.wakeTask j).wake i) := by
  rcases wakeTask_cases s j with ⟨hwas, hwake, hlife⟩ | ⟨hwas, hwake, hlife⟩ | ⟨hwas, hwake, hlife⟩
  · rw [hwake, hlife]
    by_cases hi : i = j
    · -- A task whose word says that it is polled is, or is about to be.
      have hj := h j
      rw [hwas] at hj
      rw [hi, Function.update_self]
      cases hl : s.life j <;> rw [hl] at hj
      · trivial
      · exact .inr rfl
      · cases hj
      · cases hj
    · rw [Function.update_of_ne hi]
      exact h i
  · rw [hwake, hlife]
    by_cases hi : i = j
    · rw [hi, Function.update_self, Function.update_self]
      trivial
    · rw [Function.update_of_ne hi, Function.update_of_ne hi]
      exact h i
  · rw [hwake, hlife]
    exact h i

omit [DecidableEq K] in
/-- Whoever has been told is going to be polled. -/
theorem due_wakeTask (h : ∀ j, Coherent (s.life j) (s.wake j)) (j : J) :
    (s.wakeTask j).Due j := by
  have hj := h j
  unfold State.Due
  -- It is parked and is queued; it is polled and is marked; or it was marked before.
  rcases wakeTask_cases s j with ⟨hwas, hwake, hlife⟩ | ⟨hwas, hwake, hlife⟩ | ⟨hwas, hwake, hlife⟩
  · rw [hwake, hlife, Function.update_self]
    rw [hwas] at hj
    cases hl : s.life j <;> rw [hl] at hj
    · exact .inr (.inl rfl)
    · exact .inr (.inr (.inl ⟨rfl, rfl⟩))
    · cases hj
    · cases hj
  · rw [hlife, Function.update_self]
    exact .inr (.inl rfl)
  · rw [hwake, hlife]
    cases hl : s.life j <;> rw [hl] at hj
    · exact .inr (.inl rfl)
    · refine .inr (.inr (.inl ⟨rfl, ?_⟩))
      rcases hwas with hwas | hwas
      · exact hwas
      · rcases hj with hj | hj <;> rw [hwas] at hj <;> cases hj
    · rcases hwas with hwas | hwas <;> rw [hwas] at hj <;> cases hj
    · exact .inr (.inr (.inr rfl))

omit [DecidableEq K] in
/-- Another wake takes nothing back. -/
theorem due_wakeTask_of_due {i : J} (h : s.Due i) (j : J) : (s.wakeTask j).Due i := by
  unfold State.Due at h ⊢
  rw [(wakeTask_frame s j).2.2.2.2.2.2]
  rcases h with h | h
  · exact .inl h
  right
  -- A wake queues, marks or leaves: none of them undoes what was due.
  rcases wakeTask_cases s j with ⟨hwas, hwake, hlife⟩ | ⟨hwas, hwake, hlife⟩ | ⟨hwas, hwake, hlife⟩
  · rw [hwake, hlife]
    refine h.imp_right fun hx => hx.imp_left fun ⟨hpolling, hnotified⟩ => ⟨hpolling, ?_⟩
    by_cases hi : i = j
    · rw [hi, Function.update_self]
    · rw [Function.update_of_ne hi]
      exact hnotified
  · rw [hwake, hlife]
    by_cases hi : i = j
    · rw [hi, Function.update_self]
      exact .inl rfl
    · rw [Function.update_of_ne hi, Function.update_of_ne hi]
      exact h
  · rw [hwake, hlife]
    exact h

omit [DecidableEq K] in
theorem inv_wake (h : Inv s) (j : J) : Inv (s.wakeTask j) := by
  rcases wakeTask_frame s j with ⟨hword, _, hexit, hlast, hwoken, htold, _⟩
  refine
    { finished := by rw [hword, hexit]; exact h.finished
      kept := fun joiner k hx => ?_
      coherent := coherent_wakeTask h.coherent j
      fresh := by rw [hexit, hwoken, htold]; exact h.fresh
      due := fun i hi => due_wakeTask_of_due (h.due i (htold ▸ hi)) j }
  rw [hlast] at hx
  have hkept := h.kept joiner k hx
  unfold Kept at hkept ⊢
  rw [hexit, hword, hwoken, htold]
  exact hkept

/-- A step of a poll. A registration that succeeds replaces the one before. -/
theorem inv_step (h : Inv s) (spurious : Bool) : Inv (s.stepPoll spurious) := by
  unfold State.stepPoll
  split
  · exact h
  · exact ⟨h.finished, h.kept, h.coherent, h.fresh, h.due⟩
  · next joiner k cur _ =>
      split
      · exact ⟨h.finished, h.kept, h.coherent, h.fresh, h.due⟩
      · next hcur =>
          split
          · next hcas =>
              -- The word was not `FINISHED`, so the awaited task is still running.
              have hrunning : s.exit = .running := by
                by_contra hx
                exact hcur (hcas.1.symm.trans (h.finished.mpr hx))
              have hstored : registration joiner k ≠ .finished := by
                cases joiner <;> simp [registration]
              refine ⟨?_, fun joiner' k' hlast => ?_, h.coherent, h.fresh, h.due⟩
              · exact iff_of_false hstored fun hx => hx hrunning
              · cases hlast
                unfold Kept
                rw [show _ = Exit.running from hrunning]
          · exact ⟨h.finished, h.kept, h.coherent, h.fresh, h.due⟩

theorem inv_complete (h : Inv s) (hg : s.exit = .running) : Inv (next stands s .complete) := by
  refine
    { finished := iff_of_true rfl (by simp [next])
      kept := fun joiner k hlast => ?_
      coherent := h.coherent
      fresh := fun _ => h.fresh (by simp [hg])
      due := h.due }
  have hkept := h.kept joiner k hlast
  unfold Kept at hkept
  rw [hg] at hkept
  exact hkept

omit [DecidableEq J] [DecidableEq K] in
/-- The awaited task has settled, having woken or told whom it read. -/
theorem inv_settled (h : Inv s) {w : Word J K} (hexit : s.exit = .settling w) {woken : Option K}
    {told : Option J} (hword : s'.word = s.word) (hlast : s'.last = s.last)
    (hcoherent : ∀ j, Coherent (s'.life j) (s'.wake j)) (hsettled : s'.exit = .settled)
    (hwoken : s'.woken = woken) (htold : s'.told = told) (hdue : ∀ j, told = some j → s'.Due j)
    (hjoiner : ∀ j, w = .joiner j → told = some j ∧ woken = none)
    (hwaker : ∀ k, w = .waker k → woken = some k) : Inv s' := by
  refine
    { finished := ?_
      kept := fun joiner k hx => ?_
      coherent := hcoherent
      fresh := fun hx => absurd hsettled hx
      due := fun j hj => hdue j (htold ▸ hj) }
  · rw [hword, hsettled]
    exact iff_of_true (h.finished.mpr (by simp [hexit])) (by simp)
  · rw [hlast] at hx
    have hkept := h.kept joiner k hx
    unfold Kept at hkept ⊢
    rw [hexit] at hkept
    rw [hsettled, hwoken, htold]
    -- What was registered last is what the exit has read.
    cases joiner with
    | some j => exact hjoiner j hkept
    | none => exact hwaker k hkept

omit [DecidableEq K] in
theorem wakeWaker_frame (stands : K → Option J) (s : State J K) (k : K)
    (h : ∀ j, Coherent (s.life j) (s.wake j)) :
    (s.wakeWaker stands k).word = s.word ∧ (s.wakeWaker stands k).last = s.last ∧
      (s.wakeWaker stands k).told = s.told ∧
      ∀ j, Coherent ((s.wakeWaker stands k).life j) ((s.wakeWaker stands k).wake j) := by
  unfold State.wakeWaker
  cases stands k with
  | none => exact ⟨rfl, rfl, rfl, h⟩
  | some j =>
      rcases wakeTask_frame s j with ⟨hword, _, _, hlast, _, htold, _⟩
      exact ⟨hword, hlast, htold, coherent_wakeTask h j⟩

omit [DecidableEq K] in
/-- The awaited task wakes the waker, or claims the joiner, that was registered last. -/
theorem inv_settle (h : Inv s) {w : Word J K} (hexit : s.exit = .settling w) :
    Inv (s.settle stands) := by
  have hfresh := h.fresh (by simp [hexit])
  have hcoherent : ∀ j, Coherent (s.forget.life j) (s.forget.wake j) := h.coherent
  unfold State.settle
  rw [hexit]
  -- A waker was registered, or a joiner, or nobody.
  cases w with
  | waker k =>
      dsimp only
      rcases wakeWaker_frame stands s.forget k hcoherent with ⟨hword, hlast, htold, hwoken⟩
      refine inv_settled h hexit hword hlast hwoken rfl rfl (htold.trans hfresh.2) ?_ ?_ ?_ <;>
        simp
  | joiner j =>
      dsimp only
      rcases wakeTask_frame s.forget j with ⟨hword, _, _, hlast, hwoken, _, _⟩
      refine inv_settled h hexit hword hlast (coherent_wakeTask hcoherent j) rfl
        (hwoken.trans hfresh.1) rfl (fun i hi => ?_) (fun i hi => ?_) (by simp)
      · cases hi
        exact due_wakeTask hcoherent j
      · cases hi
        exact ⟨rfl, rfl⟩
  | running | finished =>
      dsimp only
      refine inv_settled h hexit rfl rfl hcoherent rfl hfresh.1 hfresh.2 ?_ ?_ ?_ <;> simp

omit [DecidableEq K] in
/-- A step of a task, which is polled again before it can miss what it was told. -/
theorem inv_task (h : Inv s) {j : J} {wake : WakeState} {life : Life} {polled : J → Bool}
    (hword : s'.word = s.word) (hexit : s'.exit = s.exit) (hlast : s'.last = s.last)
    (hwoken : s'.woken = s.woken) (htold : s'.told = s.told)
    (hwake : s'.wake = Function.update s.wake j wake)
    (hlife : s'.life = Function.update s.life j life) (hpolled : s'.polled = polled)
    (hmono : ∀ i, s.polled i = true → polled i = true) (hcoherent : Coherent life wake)
    (hdue : s.Due j → s'.Due j) : Inv s' := by
  refine
    { finished := by rw [hword, hexit]; exact h.finished
      kept := fun joiner k hx => ?_
      coherent := fun i => ?_
      fresh := by rw [hexit, hwoken, htold]; exact h.fresh
      due := fun i hi => ?_ }
  · rw [hlast] at hx
    have hkept := h.kept joiner k hx
    unfold Kept at hkept ⊢
    rw [hexit, hword, hwoken, htold]
    exact hkept
  · rw [hwake, hlife]
    by_cases hi : i = j
    · rw [hi, Function.update_self, Function.update_self]
      exact hcoherent
    · rw [Function.update_of_ne hi, Function.update_of_ne hi]
      exact h.coherent i
  · -- The other tasks are where they were, and were told what they were told.
    have hbefore := h.due i (htold ▸ hi)
    by_cases hij : i = j
    · rw [hij] at hbefore ⊢
      exact hdue hbefore
    · unfold State.Due at hbefore ⊢
      rw [hwake, hlife, Function.update_of_ne hij, Function.update_of_ne hij, hpolled]
      exact hbefore.imp_left (hmono i)

/-- Every step keeps the invariant. -/
theorem inv_next (h : Inv s) {a : Action J K} (hg : guard s a) : Inv (next stands s a) := by
  -- The end of a poll and the exit may lose a wake; the rest only changes what is queued.
  cases a with
  | poll joiner k => exact ⟨h.finished, by simp [next], h.coherent, h.fresh, h.due⟩
  | step spurious => exact inv_step h spurious
  | complete => exact inv_complete h hg
  | settle =>
      have hg : s.exit.Settling := hg
      cases hexit : s.exit with
      | settling w => exact inv_settle h hexit
      | running | settled =>
          rw [hexit] at hg
          cases hg
  | wake j => exact inv_wake h j
  | begins j =>
      refine inv_task (j := j) h rfl rfl rfl rfl rfl rfl rfl rfl (fun i hi => ?_) (.inl rfl)
        fun _ => .inl (Function.update_self ..)
      change Function.update s.polled j true i = true
      by_cases hij : i = j
      · rw [hij, Function.update_self]
      · rw [Function.update_of_ne hij]
        exact hi
  | pend j =>
      have hg : s.life j = .polling := hg
      unfold next
      dsimp only
      split
      · -- A wake came during the poll, and the task goes back into a queue.
        exact inv_task (j := j) h rfl rfl rfl rfl rfl rfl rfl rfl (fun _ => id) trivial
          fun _ => .inr (.inl (Function.update_self ..))
      · next hnot =>
          refine inv_task (j := j) h rfl rfl rfl rfl rfl rfl rfl rfl (fun _ => id) rfl
            fun hdue => ?_
          rcases hdue with hx | hx | ⟨_, hx⟩ | hx
          · exact .inl hx
          · rw [hg] at hx
            cases hx
          · exact absurd hx hnot
          · rw [hg] at hx
            cases hx
  | finish j =>
      exact inv_task (j := j) h rfl rfl rfl rfl rfl rfl rfl rfl (fun _ => id) rfl
        fun _ => .inr (.inr (.inr (Function.update_self ..)))

omit [DecidableEq J] [DecidableEq K] in
theorem inv_init (h : init s) : Inv s := by
  rcases h with ⟨hword, -, hexit, hlast, -, htasks, hwoken, htold⟩
  refine
    { finished := by simp [hword, hexit]
      kept := by simp [hlast]
      coherent := fun j => ?_
      fresh := fun _ => ⟨hwoken, htold⟩
      due := by simp [htold] }
  rw [(htasks j).2]
  trivial

theorem inv_reachable (h : (system stands).Reachable s) : Inv s :=
  h.induct (P := Inv) (fun _ => inv_init) fun _ _ hs hg => inv_next hs hg

/-- However the polls, the tasks and the completion interleave: once the awaited task has
    settled, the waker of the last poll that returned `Pending` is honoured, if and only if
    that poll was outside of the poll of any async task, or the waker stands for the task
    that was being polled. -/
theorem honoured_iff (stands : K → Option J) {s : State J K} (h : (system stands).Reachable s)
    (hexit : s.exit = .settled) {joiner : Option J} {k : K} (hlast : s.last = some (joiner, k)) :
    Honoured stands s k ↔ ∀ j, joiner = some j → stands k = some j := by
  have hinv := inv_reachable h
  have hkept := hinv.kept joiner k hlast
  unfold Kept at hkept
  rw [hexit] at hkept
  -- A waker is always called; a joiner only if it was not being polled.
  cases joiner with
  | none => exact iff_of_true (.inl hkept) (by simp)
  | some j =>
      rcases hkept with ⟨htold, hwoken⟩
      constructor
      · rintro (hx | ⟨i, hi, htold', _⟩) j' hj'
        · rw [hwoken] at hx
          cases hx
        · cases hj'
          rw [htold] at htold'
          cases htold'
          exact hi
      · intro hx
        exact .inr ⟨j, hx j rfl, htold, hinv.due j htold⟩

end

/-- One task polls the handle, and there are two wakers: its own, and that of a part of its
    future. -/
def parts : Bool → Option Unit
  | true => some ()
  | false => none

/-- A task that has not been polled, with one that is about to await it. -/
def fresh : State Unit Bool where
  word := .running
  pc := .idle
  exit := .running
  last := none
  ready := false
  wake := fun _ => .idle
  life := fun _ => .queued
  woken := none
  told := none
  polled := fun _ => false

/-- The task polls the handle with the waker, and parks; the awaited task completes. -/
def pollAndPark (k : Bool) : List (Action Unit Bool) :=
  [.begins (), .poll (some ()) k, .step false, .step false, .pend (), .complete, .settle]

theorem fresh_init : init fresh :=
  ⟨rfl, rfl, rfl, rfl, rfl, fun _ => ⟨rfl, rfl⟩, rfl, rfl⟩

theorem honoured_own :
    Honoured parts ((system parts).run fresh (pollAndPark true)) true ↔
      ∀ j, some () = some j → parts true = some j :=
  honoured_iff parts
    (System.reachable_run _ (pollAndPark true) fresh fresh_init (by decide +kernel)) rfl rfl

/-- Polled with the waker of a part of the task's future, the handle forgets it: the task
    is polled again, and the part is not woken. -/
theorem part_not_woken :
    ¬ ∀ (s : State Unit Bool) (joiner : Option Unit) (k : Bool),
      (system parts).Reachable s → s.exit = .settled → s.last = some (joiner, k) →
        Honoured parts s k := by
  intro h
  have hr : (system parts).Reachable ((system parts).run fresh (pollAndPark false)) :=
    System.reachable_run _ _ fresh fresh_init (by decide +kernel)
  rcases h _ (some ()) false hr rfl rfl with hx | ⟨j, hx, _⟩
  · cases hx
  · cases hx

end Awaited

end Join

end Cmpth

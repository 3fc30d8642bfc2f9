import Cmpth.Scoped.Steps

/-!
# Fork-Join Correctness

What a `parallel_call` returns, and what it leaves in the run queue.

Where the pop after `a` finds the call's own task, the branch runs inline.
Where a thief has it, the queue is empty, since thieves take the oldest tasks
first, and the call waits for the latch. In both cases the history says what
the second branch's value is and what is left of the queue.

## Main definitions

* `Returns`: A call is about to return what its branches evaluate to.
* `Correct`: What the history says of a run.

## Theorems

* `Faithful.deque_eq`: The queue at a call's return.
* `Faithful.correct`: What follows from the invariant.
* `faithful_of_reachable`: The invariant holds in every state.
* `pushBack_restores`: A foreign task is put back unchanged.
* `forkJoin_correct`: A run is correct, whatever is stolen.
* `forkJoin_correct_seesLatch`: A call whose branch is stolen.
-/

namespace Cmpth

namespace Scoped

variable {W A V : Type*} [DecidableEq W] [DecidableEq A] {w₀ : W} {out : Option V}
  {s : State W A V} {l : Log A V}

/-- The call of the task at `t` is about to return `ra` and `rb`: what its
    branches evaluate to, with the queue as it was at entry but for what thieves
    have taken. -/
structure Returns (s : State W A V) (l : Log A V) (w : W) (t : A) (ra rb : V)
    (k : V → V → Prog V) (st : List (Frame W A V)) : Prop where
  fst : (l.fst t).eval = some (some ra)
  snd : (l.snd t).eval = some (some rb)
  once : l.starts t = 1
  resumes : (next s (.step w)).worker w =
    { deque := (l.entry t).filter fun y => y ∉ l.robbed t
      stack := st
      ctl := .run (k ra rb) }

/-- What the history says of a run whose root closure comes to `out`. A second
    branch is run inline exactly when it is still queued, which is when no thief
    has taken it, and there is never another task to push back. -/
structure Correct (out : Option V) (s : State W A V) (l : Log A V) : Prop where
  once : ∀ t, l.starts t ≤ 1
  inline : ∀ w t ra rb k st, (s.worker w).ctl = .ret rb →
    (s.worker w).stack = .inline t ra k :: st → Returns s l w t ra rb k st
  taken : ∀ w t ra k st, (s.worker w).ctl = .step → (s.worker w).stack = .take t ra k :: st →
    ∃ rb, (s.task t).result = some rb ∧ Returns s l w t ra rb k st
  pop : ∀ w t ra k st, (s.worker w).ctl = .step → (s.worker w).stack = .pop t ra k :: st →
    (((next s (.step w)).worker w).stack = .inline t ra k :: st ↔ t ∈ (s.worker w).deque) ∧
      (t ∈ (s.worker w).deque ↔ t ∉ l.robbed t)
  keeps : ∀ w t ra k x, .pushBack t ra k x ∉ (s.worker w).stack
  root : ∀ w hs o st, (s.worker w).ctl = .step → (s.worker w).stack = .finish hs o :: st → o = out
  running : s.aborted = false

omit [DecidableEq W] in
/-- The queue of a call that has its task back. -/
theorem Faithful.deque_eq (h : Faithful w₀ out s l) {w : W} {f : Frame W A V}
    {st : List (Frame W A V)} {t : A} (hst : (s.worker w).stack = f :: st)
    (hf : f.owns = some t) (hkeeps : f.keeps l.entry = l.entry t) :
    (s.worker w).deque = (l.entry t).filter fun y => y ∉ l.robbed t := by
  have hheld := (h.ok w).held
  have hnocatch : ∀ k, f ≠ .catchUnwind k := by
    intro k hk
    rw [hk] at hf
    cases hf
  rw [hst, held_cons hnocatch, hkeeps] at hheld
  -- What is left is what the frames below have in the deque.
  have hrest : Held l.entry (l.entry t) st := by
    have hrest := hheld.2
    rw [hf] at hrest
    exact hrest
  have hnd : (st.filterMap Frame.owns).Nodup := by
    have hnd := (h.inv.ok w).owns_nodup
    rw [Worker.owns, hst, List.filterMap_cons, hf] at hnd
    exact hnd.of_cons
  refine eq_filter_of_prefix hheld.1 (hrest.nodup hnd) fun y hy => ?_
  exact (h.ok w).robbed f (hst ▸ List.mem_cons_self) t hf y (hkeeps ▸ hy)

theorem Faithful.correct (h : Faithful w₀ out s l) : Correct out s l := by
  constructor
  case once => exact h.once
  case inline =>
    intro w t ra rb k st hctl hst
    have hfits := (h.ok w).fits
    simp only [Worker.Fits, hctl, hst] at hfits
    obtain ⟨hsnd, hfst, -⟩ := hfits
    refine ⟨hfst, hsnd, ?_, ?_⟩
    · exact (h.ok w).starts_eq (by rw [hctl]; rfl) (hst ▸ List.mem_cons_self) rfl
    · rw [← h.deque_eq hst rfl rfl]
      simp [next, step, hctl, hst, ret, State.go, State.leave, State.modify]
  case taken =>
    intro w t ra k st hctl hst
    obtain ⟨hstarts, rb, hres, hresumes, hsnd⟩ := h.taken hctl hst
    refine ⟨rb, hres, hresumes.1, hsnd, hstarts, ?_⟩
    rw [← h.deque_eq hst rfl rfl]
    simp [next, step, hctl, hst, advance, hres, State.go, State.leave, State.modify]
  case pop =>
    intro w t ra k st hctl hst
    have hfifo := (h.inv.ok w).fifo
    rw [hst] at hfifo
    refine ⟨?_, ?_⟩
    · cases hd : (s.worker w).deque with
      | nil => simp [next, step, hctl, hst, advance, hd, State.go]
      | cons x d =>
          -- The newest queued task is the call's own.
          rw [hd] at hfifo
          obtain ⟨rfl, -⟩ := List.cons_prefix_cons.mp hfifo
          simp [next, step, hctl, hst, advance, hd, State.go, State.setDeque]
    · exact (h.ok w).robbed _ (hst ▸ List.mem_cons_self) t rfl t List.mem_cons_self
  case keeps => exact fun w => (h.inv.ok w).keeps
  case root =>
    intro w hs o st hctl hst
    have hfits := (h.ok w).fits
    simp only [Worker.Fits, hctl, hst] at hfits
    exact hfits.1
  case running => exact h.running

theorem faithful_of_reachable {p : Prog V} (hp : p.eval = some out)
    {x : State W A V × Log A V} (hr : (logged p).Reachable x) :
    ∃ w₀, Faithful w₀ out x.1 x.2 := by
  refine hr.induct (P := fun x => ∃ w₀, Faithful w₀ out x.1 x.2) ?_ ?_
  · rintro ⟨s, l⟩ ⟨⟨w₀, handles, hs⟩, rfl⟩
    exact ⟨w₀, faithful_started hs hp⟩
  · intro x a ⟨w₀, h⟩ hg
    exact ⟨w₀, faithful_next h a hg⟩

/-- Another call's task that was popped after `a` is put back unchanged. -/
theorem pushBack_restores {w : W} {t : A} {ra : V} {k : V → V → Prog V}
    {st : List (Frame W A V)} {x : A} {d : List A} (hctl : (s.worker w).ctl = .step)
    (hst : (s.worker w).stack = .pop t ra k :: st) (hd : (s.worker w).deque = x :: d)
    (hx : x ≠ t) :
    next (next s (.step w)) (.step w) = s.go w (.seek (.help t ra k) .check :: st) .step := by
  simp [next, step, hctl, hst, advance, hd, hx, State.go, State.setDeque]

/-- For every program none of whose branches panics, any number of workers and
    any schedule: every branch is run once, each `parallel_call` returns what
    sequential evaluation gives for its branches and leaves the queue as it
    found it, but for stolen tasks, and a popped task that is not its own would
    be put back. -/
theorem forkJoin_correct (p : Prog V) (hp : p.eval = some out) (x : State W A V × Log A V)
    (hr : (logged p).Reachable x) :
    Correct out x.1 x.2 ∧
      ∀ (s : State W A V) w t ra k st y d, (s.worker w).ctl = .step →
        (s.worker w).stack = .pop t ra k :: st → (s.worker w).deque = y :: d → y ≠ t →
        next (next s (.step w)) (.step w) =
          s.go w (.seek (.help t ra k) .check :: st) .step := by
  obtain ⟨w₀, h⟩ := faithful_of_reachable hp hr
  refine ⟨h.correct, ?_⟩
  intro s w t ra k st y d hctl hst hd hy
  exact pushBack_restores hctl hst hd hy

instance decidableLoggedGuard (p : Prog V) (x : State W A V × Log A V) (a : Action W A) :
    Decidable ((logged p).guard x a) :=
  inferInstanceAs (Decidable (enabled x.1 a = true))

/-- Two nested calls. -/
def nested : Prog Nat :=
  .parallelCall (.parallelCall (.ret 1) (.ret 2) fun a b => .ret (a + b)) (.ret 4)
    fun a b => .ret (a + b)

/-- Worker 1 steals and runs the outer second branch while worker 0 runs the
    inner one inline and then waits. -/
def stolenOuter : List (Action Bool Nat) :=
  [.call false 0, .call false 1, .step true, .step true, .steal true false, .step false,
    .step false, .step false, .step false, .step false, .step false, .step false, .step false,
    .step true, .step true, .step true, .step true, .step true, .step false, .step false]

/-- Worker 0 has seen the latch. -/
def seesLatch : State Bool Nat Nat × Log Nat Nat :=
  (logged nested).run (twoWorkers nested, Log.empty) stolenOuter

theorem forkJoin_correct_seesLatch :
    nested.eval = some (some 7) ∧ seesLatch.2.robbed 1 = [0] ∧
      Correct (some 7) seesLatch.1 seesLatch.2 ∧
      ∀ (s : State Bool Nat Nat) w t ra k st y d, (s.worker w).ctl = .step →
        (s.worker w).stack = .pop t ra k :: st → (s.worker w).deque = y :: d → y ≠ t →
        next (next s (.step w)) (.step w) =
          s.go w (.seek (.help t ra k) .check :: st) .step := by
  have hr : (logged nested).Reachable seesLatch :=
    (logged nested).reachable_run stolenOuter (twoWorkers nested, Log.empty)
      ⟨⟨false, [true], started_twoWorkers nested⟩, rfl⟩ (by decide +kernel)
  exact ⟨rfl, rfl, forkJoin_correct nested rfl seesLatch hr⟩

end Scoped

end Cmpth

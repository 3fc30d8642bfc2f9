import Mathlib.Logic.Function.Basic
import Cmpth.Core.System
import Cmpth.Join.Call

/-!
# Stackful Parallel Calls

Threads that make parallel calls of each other's kind, on any number of
workers.

`parallel_call` builds `b` as a thread of its own, with a context that would
enter `branch_entry`, and pushes it without switching to it. It then runs `a`
as a plain call, in which the caller may make further calls, yield, be suspended
and go on elsewhere. When `a` has returned, the caller pops the run queue of the
worker it is on by then. What it gets may be anything. Only a token of its own
descriptor, whose saved context is still the one that was made for it, is a `b`
that has not been started; then the caller gives the descriptor back, reads the
closure out of it and runs it itself. Anything else it pushes back, and joins
`b` by the join word.

Descriptors come from per-worker pools and are used again. Freed memory stays
with the worker that freed it until that worker frees something else: the pool
passes on what it has staged before, never what it is just given.

A run queue is a list of tokens; a pop or a steal may take any of them, which
covers every discipline. The join of a call is the join protocol's, on words
that need no decoding here, and its threads never drop a handle.

## Main definitions

* `Stage`: How far a call is, with its local variables.
* `Call`, `State`: The calls; the descriptors, run queues and workers.
* `Action`: One operation.
* `system`: The threads as a guarded transition system.
* `SavedDiffers`: No thread is suspended with the context it was built with.

## Theorems

* `call_set`, `call_set_ne`, `call_run`, `call_push`, `call_free`: What a step does to the records
  of calls.
* `differs_iff`: The one `b` that the thread can be.
-/

namespace Cmpth

namespace Fork

open Join (TaskPc JoinState)

/-- How far a call is, with the values the caller has by then. -/
inductive Stage (D R : Type*) where
  | unmade
  /-- `a` is being run. -/
  | pending
  | popping (ra : R)
  /-- `try_pop` has returned a token of `d`. -/
  | popped (ra : R) (d : D)
  /-- The descriptor of `b` is freed and the closure is not yet read. -/
  | freed (ra : R)
  /-- The closure is being run. -/
  | inline (ra : R)
  /-- In `JoinHandle::join`. -/
  | joining (ra : R) (rb : Option R)
  | returned (ra : R) (rb : Option R)
  /-- `a` has panicked. -/
  | unwound
  deriving DecidableEq, Repr

/-- What a descriptor is in use for. -/
inductive Body (K : Type*) where
  | free
  /-- A thread that no call has built. -/
  | plain
  /-- The `b` of a call. -/
  | branch (k : K)
  /-- A thread that no call has built and that has exited. -/
  | exited
  deriving DecidableEq, Repr

/-- Join words that hold a joiner's descriptor as it is. -/
def words (D : Type*) : Join.Encoding (JoinState D) D D where
  addr := id
  encode := id
  decode := id
  decode_encode st := by cases st <;> rfl

/-- A call: what it has built, the join and the result slot of `b`, and as
    history the results of the two branches and where `b` was started: in place,
    or as a thread by some worker. -/
structure Call (W D C R : Type*) where
  desc : D
  fresh : C
  stage : Stage D R
  join : Join.State (JoinState D) D D
  slot : Option R
  aVal : Option R
  bVal : Option R
  runs : List (Option W)

/-- The calls; of each descriptor what it is used for, the closure and the
    context in it, the calls its thread is in, innermost first, and the worker
    that has the freed memory to itself; the run queues, what runs on each
    worker, and the threads suspended elsewhere. -/
structure State (K W D C R : Type*) where
  call : K → Call W D C R
  body : D → Body K
  closure : D → Option K
  ctx : D → C
  calls : D → List K
  pool : D → Option W
  queue : W → List D
  cur : W → Option D
  parked : List D

/-- The worker, the thread it runs and the call that this is in are named by
    the action, and so are the local variables of the call. -/
inductive Action (K W D C R : Type*) where
  /-- A thread of any other origin. -/
  | spawn (w : W) (d : D)
  /-- `parallel_call`, up to the call of `a`. -/
  | call (w : W) (u : D) (k : K) (d : D) (c : C)
  | aReturns (w : W) (u : D) (k : K) (ra : R)
  | aPanics (w : W) (u : D) (k : K)
  /-- `try_pop`. -/
  | pop (w : W) (u : D) (k : K) (ra : R) (o : Option D)
  /-- The comparison, and then `free_task` or `push`. -/
  | decide (w : W) (u : D) (k : K) (ra : R) (d : D)
  /-- Read the closure and call it. -/
  | read (w : W) (u : D) (k : K) (ra : R)
  /-- The closure returns or panics. -/
  | inlineReturns (w : W) (u : D) (k : K) (ra rb : R)
  /-- A step of `JoinHandle::join`; `c` is the context it is suspended with. -/
  | join (w : W) (u : D) (k : K) (ra : R) (rb : Option R)
      (a : Join.Action (JoinState D) D D) (c : C)
  | leave (w : W) (u : D) (k : K) (ra : R) (rb : Option R)
  /-- A worker takes a token from a run queue, its own or another's. -/
  | dispatch (w w' : W) (d : D)
  /-- The thread yields or is posted to a run queue, or it waits elsewhere. -/
  | suspend (w : W) (u : D) (c : C) (dest : Option W)
  | wake (w : W) (d : D)
  /-- The worker switches to a waiting thread. -/
  | handoff (w : W) (d : D)
  /-- `branch_entry`: the closure returns or panics. -/
  | complete (w : W) (u : D) (k : K) (rb : R)
  /-- A step of `exit_with_result`. A joiner it resumes gets the worker or is
      pushed. -/
  | exit (w : W) (u : D) (k : K) (a : Join.Action (JoinState D) D D) (direct : Bool)
  | exitPlain (w : W) (u : D)
  | release (w : W) (d : D)
  /-- The pool of the worker passes on memory that was freed earlier. -/
  | flush (w : W) (d : D)

variable {K W D C R : Type*}

/-- A `b` that has been built. -/
def built (D : Type*) : Join.State (JoinState D) D D where
  kind := .stackful
  word := .running
  task := .idle
  handle := .held
  replaced := none
  written := false
  takes := []
  frees := []
  registered _ := 0
  resumed _ := 0
  boxed _ := 0
  unboxed _ := 0
  gaveUp := false
  late := false

/-- The call runs code of its user. -/
def Stage.open : Stage D R → Bool
  | .pending | .inline _ => true
  | .unmade | .popping _ | .popped .. | .freed _ | .joining .. | .returned .. | .unwound => false

/-- The steps of `JoinHandle::join` by the thread `u`. -/
def mine [DecidableEq D] (u : D) : Join.Action (JoinState D) D D → Bool
  | .join j | .isFinished j | .load (.join j) | .exchange (.join j) _ _ => j == u
  | .take | .reclaim => true
  | _ => false

variable [DecidableEq K] [DecidableEq W] [DecidableEq D]

/-- The thread runs its user's code. -/
def userCode (s : State K W D C R) (u : D) : Bool :=
  (match s.body u with
    | .branch k => (s.call k).join.task == .running
    | .plain => true
    | .free | .exited => false) &&
  match s.calls u with
    | k :: _ => (s.call k).stage.open
    | [] => true

/-- The worker runs user code, or the scheduler. -/
def coding (s : State K W D C R) (w : W) : Bool :=
  match s.cur w with
  | some u => userCode s u
  | none => true

/-- The worker runs the thread, whose innermost call is this one. -/
def OnTop (s : State K W D C R) (w : W) (u : D) (k : K) : Prop :=
  s.cur w = some u ∧ (s.calls u).head? = some k

/-- The pool of the worker may give out the descriptor. -/
def Allocates (s : State K W D C R) (w : W) (d : D) : Prop :=
  s.body d = .free ∧ (s.pool d = none ∨ s.pool d = some w)

/-- Store the record of a call. -/
def State.set (s : State K W D C R) (k : K) (c : Call W D C R) : State K W D C R :=
  { s with call := Function.update s.call k c }

/-- The closure that is read is started. -/
def State.starts (s : State K W D C R) (o : Option K) (r : Option W) : State K W D C R :=
  match o with
  | some k => s.set k { s.call k with runs := (s.call k).runs ++ [r] }
  | none => s

/-- Give a descriptor to the pool of a worker. -/
def State.free (s : State K W D C R) (w : W) (d : D) : State K W D C R :=
  { s with
    body := Function.update s.body d .free
    pool := Function.update s.pool d (some w) }

/-- Take a descriptor from a pool, for a thread that has not been started. -/
def State.alloc (s : State K W D C R) (d : D) (b : Body K) (o : Option K) : State K W D C R :=
  { s with
    body := Function.update s.body d b
    closure := Function.update s.closure d o
    calls := Function.update s.calls d []
    pool := Function.update s.pool d none }

/-- Push a thread to a worker's own queue. -/
def State.push (s : State K W D C R) (w : W) (d : D) : State K W D C R :=
  { s with queue := Function.update s.queue w (d :: s.queue w) }

/-- Let a worker run a thread, or none. -/
def State.run (s : State K W D C R) (w : W) (o : Option D) : State K W D C R :=
  { s with cur := Function.update s.cur w o }

/-- The innermost call is left. -/
def State.returns (s : State K W D C R) (u : D) (k : K) (c : Call W D C R) : State K W D C R :=
  { s.set k c with calls := Function.update s.calls u (s.calls u).tail }

omit [DecidableEq W] [DecidableEq D] in
@[simp] theorem call_set (s : State K W D C R) (k : K) (c : Call W D C R) :
    (s.set k c).call k = c :=
  Function.update_self ..

omit [DecidableEq W] [DecidableEq D] in
@[simp] theorem call_set_ne (s : State K W D C R) {k k' : K} (c : Call W D C R) (h : k' ≠ k) :
    (s.set k c).call k' = s.call k' :=
  Function.update_of_ne h ..

omit [DecidableEq K] [DecidableEq D] in
@[simp] theorem call_run (s : State K W D C R) (w : W) (o : Option D) :
    (s.run w o).call = s.call := rfl

omit [DecidableEq K] [DecidableEq D] in
@[simp] theorem call_push (s : State K W D C R) (w : W) (d : D) : (s.push w d).call = s.call := rfl

omit [DecidableEq K] [DecidableEq W] in
@[simp] theorem call_free (s : State K W D C R) (w : W) (d : D) : (s.free w d).call = s.call := rfl

/-- The worker switches to the thread. One that has not run enters
    `branch_entry`, which reads the closure. -/
def State.enter (s : State K W D C R) (w : W) (d : D) : State K W D C R :=
  match s.body d with
  | .branch k =>
      if (s.call k).join.task = .idle then
        ((s.run w (some d)).set k
          { s.call k with join := Join.next (words D) (s.call k).join .begin }).starts
            (s.closure d) (some w)
      else s.run w (some d)
  | .free | .plain | .exited => s.run w (some d)

/-- A step of `join`. The compare and exchange that registers the thread is
    made when it is already suspended. -/
def State.joins (s : State K W D C R) (w : W) (u : D) (k : K) (ra : R)
    (a : Join.Action (JoinState D) D D) (c : C) : State K W D C R :=
  let j := Join.next (words D) (s.call k).join a
  let s' := s.set k { s.call k with join := j }
  match a with
  | .take => s.set k { s.call k with join := j, stage := .joining ra (s.call k).slot }
  | .reclaim => s'.free w (s.call k).desc
  | .exchange _ _ _ =>
      if j.handle = .parked u then
        { s'.run w none with ctx := Function.update s.ctx u c }
      else s'
  | _ => s'

/-- A step of `exit_with_result`, whose last one leaves the worker to another
    thread. -/
def State.exits (s : State K W D C R) (w : W) (u : D) (k : K)
    (a : Join.Action (JoinState D) D D) (direct : Bool) : State K W D C R :=
  let j := Join.next (words D) (s.call k).join a
  let s' := s.set k { s.call k with join := j }
  match a, j.task with
  | .write _, _ => s.set k { s.call k with join := j, slot := (s.call k).bVal }
  | .resume t, _ => if direct then s'.run w (some t) else (s'.run w none).push w t
  | .free _, _ => (s'.run w none).free w u
  | _, .done _ => s'.run w none
  | _, _ => s'

variable [DecidableEq C]

/-- What an action does. -/
def next (s : State K W D C R) : Action K W D C R → State K W D C R
  | .spawn w d => (s.alloc d .plain none).push w d
  | .call w u k d c =>
      let s' := (s.alloc d (.branch k) (some k)).push w d
      { s' with
        call := Function.update s.call k
          { desc := d
            fresh := c
            stage := .pending
            join := built D
            slot := none
            aVal := none
            bVal := none
            runs := [] }
        ctx := Function.update s.ctx d c
        calls := Function.update s'.calls u (k :: s.calls u) }
  | .aReturns _ _ k ra => s.set k { s.call k with stage := .popping ra, aVal := some ra }
  | .aPanics _ u k => s.returns u k { s.call k with stage := .unwound }
  | .pop w _ k ra (some d) =>
      { s.set k { s.call k with stage := .popped ra d } with
        queue := Function.update s.queue w ((s.queue w).erase d) }
  | .pop _ _ k ra none => s.set k { s.call k with stage := .joining ra none }
  | .decide w _ k ra d =>
      if d = (s.call k).desc ∧ s.ctx d = (s.call k).fresh then
        (s.set k { s.call k with stage := .freed ra }).free w d
      else (s.set k { s.call k with stage := .joining ra none }).push w d
  | .read _ _ k ra =>
      (s.set k { s.call k with stage := .inline ra }).starts (s.closure (s.call k).desc) none
  | .inlineReturns _ u k ra rb =>
      s.returns u k { s.call k with stage := .returned ra (some rb), bVal := some rb }
  | .join w u k ra _ a c => s.joins w u k ra a c
  | .leave _ u k ra rb => s.returns u k { s.call k with stage := .returned ra rb }
  | .dispatch w w' d =>
      { s with queue := Function.update s.queue w' ((s.queue w').erase d) }.enter w d
  | .suspend w u c dest =>
      let s' : State K W D C R := { s.run w none with ctx := Function.update s.ctx u c }
      match dest with
      | some w' => s'.push w' u
      | none => { s' with parked := u :: s.parked }
  | .wake w d => { s with parked := s.parked.erase d }.push w d
  | .handoff w d => { s with parked := s.parked.erase d }.enter w d
  | .complete _ _ k rb =>
      s.set k
        { s.call k with
          join := Join.next (words D) (s.call k).join .complete
          bVal := some rb }
  | .exit w u k a direct => s.exits w u k a direct
  | .exitPlain w u => { s.run w none with body := Function.update s.body u .exited }
  | .release w d => s.free w d
  | .flush _ d => { s with pool := Function.update s.pool d none }

/-- When an action can be taken: the thread is there, and the worker runs it. -/
def guard (s : State K W D C R) : Action K W D C R → Prop
  | .spawn w d => coding s w = true ∧ Allocates s w d
  | .call w u k d _ =>
      s.cur w = some u ∧ userCode s u = true ∧ (s.call k).stage = .unmade ∧ Allocates s w d
  | .aReturns w u k _ | .aPanics w u k => OnTop s w u k ∧ (s.call k).stage = .pending
  | .pop w u k ra o =>
      OnTop s w u k ∧ (s.call k).stage = .popping ra ∧ ∀ d, o = some d → d ∈ s.queue w
  | .decide w u k ra d => OnTop s w u k ∧ (s.call k).stage = .popped ra d
  | .read w u k ra => OnTop s w u k ∧ (s.call k).stage = .freed ra
  | .inlineReturns w u k ra _ => OnTop s w u k ∧ (s.call k).stage = .inline ra
  | .join w u k ra rb a _ =>
      OnTop s w u k ∧ (s.call k).stage = .joining ra rb ∧ mine u a = true ∧
        Join.guard (words D) (s.call k).join a
  | .leave w u k ra rb =>
      OnTop s w u k ∧ (s.call k).stage = .joining ra rb ∧ (s.call k).join.handle = .gone
  | .dispatch w w' d => s.cur w = none ∧ d ∈ s.queue w'
  | .suspend w u _ _ => s.cur w = some u ∧ userCode s u = true
  | .wake _ d => d ∈ s.parked
  | .handoff w d => s.cur w = none ∧ d ∈ s.parked
  | .complete w u k _ =>
      s.cur w = some u ∧ s.calls u = [] ∧ s.body u = .branch k ∧
        (s.call k).join.task = .running
  | .exit w u k a _ =>
      s.cur w = some u ∧ s.calls u = [] ∧ s.body u = .branch k ∧
        (Join.Call.ofTask a = true ∧ a ≠ .complete) ∧ Join.guard (words D) (s.call k).join a
  | .exitPlain w u => s.cur w = some u ∧ s.calls u = [] ∧ s.body u = .plain
  | .release w d => coding s w = true ∧ s.body d = .exited
  | .flush w d => coding s w = true ∧ s.pool d = some w

/-- No call has been made and there is no thread. -/
def init (s : State K W D C R) : Prop :=
  (∀ k, (s.call k).stage = .unmade ∧ (s.call k).join.handle = .held) ∧
  (∀ d, s.body d = .free ∧ s.calls d = []) ∧
  (∀ w, s.queue w = [] ∧ s.cur w = none) ∧ s.parked = []

/-- The threads as a guarded transition system. -/
def system : System (State K W D C R) (Action K W D C R) where
  init := init
  guard := guard
  next := next

/-- A thread that has been started is never suspended with the very context it
    was built with. -/
def SavedDiffers (s : State K W D C R) : Action K W D C R → Prop
  | .suspend _ u c _ | .join _ u _ _ _ _ c => ∀ k, s.body u = .branch k → c ≠ (s.call k).fresh
  | _ => True

instance decidableOnTop (s : State K W D C R) (w : W) (u : D) (k : K) : Decidable (OnTop s w u k) :=
  inferInstanceAs (Decidable (_ ∧ _))

instance decidableAllocates (s : State K W D C R) (w : W) (d : D) : Decidable (Allocates s w d) :=
  inferInstanceAs (Decidable (_ ∧ (_ ∨ _)))

instance decidableSystemGuard [DecidableEq R] (s : State K W D C R) :
    ∀ a : Action K W D C R, Decidable (system.guard s a)
  | .spawn w d => inferInstanceAs (Decidable (_ ∧ Allocates s w d))
  | .call w _ _ d _ => inferInstanceAs (Decidable (_ ∧ _ ∧ _ ∧ Allocates s w d))
  | .aReturns w u k _ | .aPanics w u k | .decide w u k _ _ | .read w u k _
  | .inlineReturns w u k _ _ => inferInstanceAs (Decidable (OnTop s w u k ∧ _))
  | .pop w u k _ none =>
      decidable_of_iff (OnTop s w u k ∧ _) (and_congr_right fun _ =>
        (and_iff_left fun d (hd : none = some d) => nomatch hd).symm)
  | .pop w u k _ (some d) =>
      decidable_of_iff (OnTop s w u k ∧ _ ∧ d ∈ s.queue w) (and_congr_right fun _ =>
        and_congr_right fun _ => ⟨fun hm _ he => Option.some.inj he ▸ hm, fun h => h d rfl⟩)
  | .join w u k _ _ a _ =>
      inferInstanceAs
        (Decidable (OnTop s w u k ∧ _ ∧ _ ∧ Join.guard (words D) (s.call k).join a))
  | .leave w u k _ _ => inferInstanceAs (Decidable (OnTop s w u k ∧ _ ∧ _))
  | .dispatch _ _ _ | .suspend _ _ _ _ | .handoff _ _ | .release _ _ | .flush _ _ =>
      inferInstanceAs (Decidable (_ ∧ _))
  | .wake _ d => inferInstanceAs (Decidable (d ∈ s.parked))
  | .complete _ _ _ _ => inferInstanceAs (Decidable (_ ∧ _ ∧ _ ∧ _))
  | .exit _ _ k a _ =>
      inferInstanceAs (Decidable (_ ∧ _ ∧ _ ∧ (_ ∧ _) ∧ Join.guard (words D) (s.call k).join a))
  | .exitPlain _ _ => inferInstanceAs (Decidable (_ ∧ _ ∧ _))

omit [DecidableEq K] [DecidableEq W] [DecidableEq D] [DecidableEq C] in
/-- The one `b` that the thread can be. -/
theorem differs_iff (s : State K W D C R) (u : D) (c : C) :
    (∀ k, s.body u = .branch k → c ≠ (s.call k).fresh) ↔
      match s.body u with
      | .branch k => c ≠ (s.call k).fresh
      | .free | .plain | .exited => True := by
  cases s.body u with
  | branch k => exact ⟨fun h => h k rfl, fun h k' he => Body.branch.inj he ▸ h⟩
  | free | plain | exited => exact ⟨fun _ => trivial, fun _ k he => nomatch he⟩

instance decidableSavedDiffers (s : State K W D C R) :
    ∀ a : Action K W D C R, Decidable (SavedDiffers s a)
  | .suspend _ u c _ | .join _ u _ _ _ _ c =>
      have : Decidable (match s.body u with
          | .branch k => c ≠ (s.call k).fresh
          | .free | .plain | .exited => True) := by
        cases s.body u <;> dsimp only <;> infer_instance
      decidable_of_iff _ (differs_iff s u c).symm
  | .spawn .. | .call .. | .aReturns .. | .aPanics .. | .pop .. | .decide .. | .read ..
  | .inlineReturns .. | .leave .. | .dispatch .. | .wake .. | .handoff .. | .complete ..
  | .exit .. | .exitPlain .. | .release .. | .flush .. => isTrue trivial

section

-- The proofs take these apart in parallel: their equations are made here, once.
attribute [local simp] next

end

end Fork

end Cmpth

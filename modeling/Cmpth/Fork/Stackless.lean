import Mathlib.Logic.Function.Basic
import Cmpth.Core.System
import Cmpth.Fork.Parallel
import Cmpth.Waker.Word

/-!
# Stackless Parallel Calls

Tasks that make parallel calls of the stackless kind, and tasks that are merely
spawned, on any number of workers.

`parallel_call` builds `b` as a task, pushes it, and awaits `a`. While `a` is
pending the caller's worker goes on with other tasks, so `b` may be driven by
it or by a thief, park under its own waker, be woken and be queued again, and
the caller itself may be polled by another worker by the time `a` is ready. The
caller then pops the run queue it is at. If that returns the descriptor of `b`,
it wraps the future in a `BranchPoll` and polls it as part of itself; otherwise
it awaits the handle of `b`.

A task's token is moved by whoever has it: a run queue, the deferred list of a
worker, a waker that has claimed the task and is about to push it, a worker
that is driving it, a caller that has popped it. Nobody has the token of a
parked task. Any waker of any descriptor may be woken at any time, also one
that was made for a task which had the descriptor before; so what a completing
task does to its joiner is no action of its own.

## Main definitions

* `Stage`: How far a call is.
* `Spot`: Where a token is.
* `Task`, `State`: The tasks; the descriptors and tokens.
* `Action`: One operation.
* `system`: The tasks as a guarded transition system.
-/

namespace Cmpth

namespace Fork

namespace Stackless

open Join (JoinState)
open Waker (WakeState)

/-- How far the call that has made a task is, with the values it has by then. -/
inductive Stage (R : Type*) where
  | unmade
  /-- No call has made the task: its handle is somebody else's, or it has none. -/
  | spawned
  /-- `a` is pending or being polled. -/
  | pending
  | popping (ra : R)
  /-- `try_pop` has returned a token. -/
  | popped (ra : R)
  /-- A `BranchPoll`, between two polls of `b`'s future. -/
  | branch (ra : R)
  /-- The `BranchPoll` polls `b`'s future. -/
  | polling (ra : R)
  /-- That poll was ready. -/
  | freeing (ra rb : R)
  /-- The handle is being awaited. -/
  | awaiting (ra : R) (rb : Option R)
  | returned (ra : R) (rb : Option R)
  /-- The call was dropped while it awaited the handle. -/
  | dropping
  /-- The call was dropped before, or `a` has panicked. -/
  | dropped
  deriving DecidableEq, Repr

/-- Where a token is. -/
inductive Spot (K W Q : Type*) where
  /-- In a run queue, a deferred list or the external queue. -/
  | queued (q : Q)
  /-- Claimed by a waker that is about to push it, or about to be requeued. -/
  | woken
  /-- On a worker, in `run_async_poll`, before the task is marked. -/
  | entered (w : W)
  /-- And after that. -/
  | driven (w : W)
  /-- Popped by a caller. -/
  | held (k : K)
  deriving DecidableEq, Repr

/-- A task: its descriptor, the call that has made it, its join word and result
    slot, and as history the results of `a` and of its own future, who is inside
    a poll of the future now (a worker that drives the task, or else the
    caller), how often the future was ready and how often the descriptor, with
    the future's memory, was freed. -/
structure Task (W D R : Type*) where
  desc : D
  stage : Stage R
  join : Join.State (JoinState D) D D
  slot : Option R
  aVal : Option R
  bVal : Option R
  inside : List (Option W)
  ready : ℕ
  frees : ℕ

/-- The tasks; of each descriptor the task that has it and the wake word; and
    the tokens. -/
structure State (K W Q D R : Type*) where
  task : K → Task W D R
  body : D → Option K
  wake : D → WakeState
  tokens : Spot K W Q → List D

/-- The operations of callers, of handles' owners, of workers and of wakers. -/
inductive Action (K W Q D R : Type*) where
  /-- `spawn_async`; the root task has no handle. -/
  | spawn (q : Q) (k : K) (d : D) (root : Bool)
  /-- `parallel_call`, up to the first poll of `a`. -/
  | call (q : Q) (k : K) (d : D)
  | aReady (k : K) (ra : R)
  /-- The call is dropped while `a` is pending, or the `BranchPoll` is. -/
  | drop (k : K)
  /-- `try_pop`. -/
  | pop (q : Q) (k : K) (ra : R) (o : Option D)
  /-- The comparison, and `push` if it fails. -/
  | decide (q : Q) (k : K) (ra : R) (d : D)
  /-- `BranchPoll::poll`, up to the poll of the future. -/
  | pollBranch (k : K) (ra : R)
  | branchPending (k : K) (ra : R)
  | branchReady (k : K) (ra rb : R)
  /-- `free_async_task`. -/
  | freeBranch (k : K) (ra rb : R)
  /-- A step of `JoinHandle::poll` or of its drop. -/
  | handle (k : K) (a : Join.Action (JoinState D) D D)
  | leave (k : K) (ra : R) (rb : Option R)
  /-- A worker takes a token from its queue or another's, in its scheduler or in
      `try_reclaim_and_run`. -/
  | dispatch (w : W) (q : Q) (d : D)
  /-- A worker goes on with the joiner it has claimed. -/
  | transfer (w : W) (d : D)
  /-- `mark_polling`, and the call of `poll_fn`. -/
  | begin (w : W) (d : D) (k : K)
  /-- The future returns `Pending`. -/
  | pending (w : W) (d : D) (k : K)
  /-- `run_async_poll` drops its waker. -/
  | dropWaker (w : W) (d : D) (k : K)
  /-- `park_after_poll`. -/
  | park (w : W) (d : D) (k : K)
  /-- The future returns `Ready` or panics, and is dropped; `mark_idle`. -/
  | complete (w : W) (d : D) (k : K) (rb : R)
  /-- A later step of the task. -/
  | exit (k : K) (a : Join.Action (JoinState D) D D)
  /-- `try_wake_async`, up to the push. -/
  | wake (d : D)
  | push (q : Q) (d : D)
  deriving DecidableEq, Repr

variable {K W Q D R : Type*}

/-- The join of a task that has been built, with a handle or without one. -/
def made (D : Type*) (root : Bool) : Join.State (JoinState D) D D :=
  { built D with
    kind := .async
    word := if root then .detached else .running
    handle := if root then .gone else .held }

/-- What is left for the task to do when its future is done. -/
def exits : Join.Action (JoinState D) D D → Bool
  | .write _ | .swap | .wake _ | .claim _ | .dropResult _ | .free _ | .dropWaker true => true
  | _ => false

/-- The handle is in use. -/
def Stage.handles : Stage R → Bool
  | .spawned | .awaiting .. | .dropping => true
  | .unmade | .pending | .popping _ | .popped _ | .branch _ | .polling _ | .freeing ..
  | .returned .. | .dropped => false

/-- A call that is dropped in an await leaves the rest to the handle. -/
def Stage.abandon : Stage R → Stage R
  | .awaiting .. => .dropping
  | st => st

/-- The result that is taken is the call's, if it is still there. -/
def Stage.take (o : Option R) : Stage R → Stage R
  | .awaiting ra _ => .awaiting ra o
  | st => st

variable [DecidableEq K] [DecidableEq W] [DecidableEq Q] [DecidableEq D]

/-- Store the record of a task. -/
def State.set (s : State K W Q D R) (k : K) (t : Task W D R) : State K W Q D R :=
  { s with task := Function.update s.task k t }

/-- Store a descriptor's wake word. -/
def State.mark (s : State K W Q D R) (d : D) (x : WakeState) : State K W Q D R :=
  { s with wake := Function.update s.wake d x }

/-- The token is gone: with the wake word, or with the future. -/
def State.take (s : State K W Q D R) (x : Spot K W Q) (d : D) : State K W Q D R :=
  { s with tokens := Function.update s.tokens x ((s.tokens x).erase d) }

/-- Put a token in a place. -/
def State.put (s : State K W Q D R) (y : Spot K W Q) (d : D) : State K W Q D R :=
  { s with tokens := Function.update s.tokens y (d :: s.tokens y) }

/-- Move a token from one place to another. -/
def State.move (s : State K W Q D R) (x y : Spot K W Q) (d : D) : State K W Q D R :=
  { s with
    tokens :=
      Function.update (Function.update s.tokens x ((s.tokens x).erase d)) y (d :: s.tokens y) }

/-- The task's descriptor goes back to the pool. -/
def State.free (s : State K W Q D R) (k : K) (t : Task W D R) : State K W Q D R :=
  { s.set k { t with frees := t.frees + 1 } with body := Function.update s.body t.desc none }

/-- `build_async_task` and `push`. -/
def State.build (s : State K W Q D R) (q : Q) (k : K) (d : D) (stage : Stage R) (root : Bool) :
    State K W Q D R :=
  let s' : State K W Q D R :=
    { s with
      task := Function.update s.task k
        { desc := d
          stage := stage
          join := made D root
          slot := none
          aVal := none
          bVal := none
          inside := []
          ready := 0
          frees := 0 }
      body := Function.update s.body d (some k)
      wake := Function.update s.wake d .idle }
  s'.put (.queued q) d

/-- A step of the handle's owner. -/
def State.handles (s : State K W Q D R) (k : K) (a : Join.Action (JoinState D) D D) :
    State K W Q D R :=
  let t := { s.task k with join := Join.next (words D) (s.task k).join a }
  match a with
  | .abandon => s.set k { t with stage := t.stage.abandon }
  | .take => s.set k { t with stage := t.stage.take t.slot }
  | .reclaim => s.free k t
  | _ => s.set k t

/-- A step of the task when its future is done. -/
def State.exits (s : State K W Q D R) (k : K) (a : Join.Action (JoinState D) D D) :
    State K W Q D R :=
  let t := { s.task k with join := Join.next (words D) (s.task k).join a }
  match a with
  | .write _ => s.set k { t with slot := t.bVal }
  | .free _ => s.free k t
  | _ => s.set k t

/-- A step of the task's pass through `run_async_poll`. -/
def Task.step (t : Task W D R) (a : Join.Action (JoinState D) D D) : Task W D R :=
  { t with join := Join.next (words D) t.join a }

/-- What an action does. -/
def next (s : State K W Q D R) : Action K W Q D R → State K W Q D R
  | .spawn q k d root => s.build q k d .spawned root
  | .call q k d => s.build q k d .pending false
  | .aReady k ra => s.set k { s.task k with stage := .popping ra, aVal := some ra }
  | .drop k =>
      match (s.task k).stage with
      | .branch _ => s.free k { s.task k with stage := .dropped }
      | _ => s.set k { s.task k with stage := .dropped }
  | .pop q k ra (some d) =>
      (s.move (.queued q) (.held k) d).set k { s.task k with stage := .popped ra }
  | .pop _ k ra none => s.set k { s.task k with stage := .awaiting ra none }
  | .decide q k ra d =>
      if d = (s.task k).desc then
        (s.take (.held k) d).set k { s.task k with stage := .branch ra }
      else
        (s.move (.held k) (.queued q) d).set k { s.task k with stage := .awaiting ra none }
  | .pollBranch k ra =>
      s.set k { s.task k with stage := .polling ra, inside := none :: (s.task k).inside }
  | .branchPending k ra =>
      s.set k { s.task k with stage := .branch ra, inside := (s.task k).inside.erase none }
  | .branchReady k ra rb =>
      s.set k
        { s.task k with
          stage := .freeing ra rb
          bVal := some rb
          inside := (s.task k).inside.erase none
          ready := (s.task k).ready + 1 }
  | .freeBranch k ra rb => s.free k { s.task k with stage := .returned ra (some rb) }
  | .handle k a => s.handles k a
  | .leave k ra rb => s.set k { s.task k with stage := .returned ra rb }
  | .dispatch w q d => s.move (.queued q) (.entered w) d
  | .transfer w d => s.move .woken (.entered w) d
  | .begin w d k =>
      ((s.move (.entered w) (.driven w) d).mark d .polling).set k
        { (s.task k).step .begin with inside := some w :: (s.task k).inside }
  | .pending w _ k =>
      s.set k { (s.task k).step .pending with inside := (s.task k).inside.erase (some w) }
  | .dropWaker _ _ k => s.set k ((s.task k).step (.dropWaker false))
  | .park w d k =>
      -- A wake during the poll: the task is queued again and not parked.
      if s.wake d = .notified then
        ((s.move (.driven w) .woken d).mark d .polling).set k ((s.task k).step .park)
      else ((s.take (.driven w) d).mark d .parked).set k ((s.task k).step .park)
  | .complete w d k rb =>
      ((s.take (.driven w) d).mark d .idle).set k
        { (s.task k).step .complete with
          bVal := some rb
          inside := (s.task k).inside.erase (some w)
          ready := (s.task k).ready + 1 }
  | .exit k a => s.exits k a
  | .wake d =>
      match s.wake d with
      | .polling => s.mark d .notified
      | .parked => (s.put .woken d).mark d .polling
      | .notified | .idle => s
  | .push q d => s.move .woken (.queued q) d

/-- The worker drives the task. -/
def Drives (s : State K W Q D R) (w : W) (d : D) (k : K) : Prop :=
  d ∈ s.tokens (.driven w) ∧ s.body d = some k

/-- When an action can be taken: the task has come that far, and the token is there. -/
def guard (s : State K W Q D R) : Action K W Q D R → Prop
  | .spawn _ k d _ | .call _ k d => (s.task k).stage = .unmade ∧ s.body d = none
  | .aReady k _ => (s.task k).stage = .pending
  | .drop k => (s.task k).stage = .pending ∨ ∃ ra, (s.task k).stage = .branch ra
  | .pop q k ra o => (s.task k).stage = .popping ra ∧ ∀ d, o = some d → d ∈ s.tokens (.queued q)
  | .decide _ k ra d => (s.task k).stage = .popped ra ∧ d ∈ s.tokens (.held k)
  | .pollBranch k ra => (s.task k).stage = .branch ra
  | .branchPending k ra | .branchReady k ra _ => (s.task k).stage = .polling ra
  | .freeBranch k ra rb => (s.task k).stage = .freeing ra rb
  | .handle k a =>
      (s.task k).stage.handles = true ∧ Join.Call.ofHandle .async a = true ∧
        Join.guard (words D) (s.task k).join a
  | .leave k ra rb =>
      (s.task k).stage = .awaiting ra rb ∧ (s.task k).join.handle = .gone ∧
        (s.task k).join.replaced = none
  | .dispatch _ q d => d ∈ s.tokens (.queued q)
  | .transfer _ d | .push _ d => d ∈ s.tokens .woken
  | .begin w d k => d ∈ s.tokens (.entered w) ∧ s.body d = some k
  | .pending w d k => Drives s w d k ∧ Join.guard (words D) (s.task k).join .pending
  | .dropWaker w d k => Drives s w d k ∧ Join.guard (words D) (s.task k).join (.dropWaker false)
  | .park w d k => Drives s w d k ∧ Join.guard (words D) (s.task k).join .park
  | .complete w d k _ => Drives s w d k ∧ Join.guard (words D) (s.task k).join .complete
  | .exit k a => exits a = true ∧ Join.guard (words D) (s.task k).join a
  | .wake _ => True

/-- No task has been made. -/
def init (s : State K W Q D R) : Prop :=
  (∀ k, (s.task k).stage = .unmade ∧ (s.task k).join.task = .idle ∧ (s.task k).inside = [] ∧
    (s.task k).ready = 0 ∧ (s.task k).frees = 0) ∧
  (∀ d, s.body d = none ∧ s.wake d = .idle) ∧ ∀ x, s.tokens x = []

/-- The tasks as a guarded transition system. -/
def system : System (State K W Q D R) (Action K W Q D R) where
  init := init
  guard := guard
  next := next

instance decidableDrives (s : State K W Q D R) (w : W) (d : D) (k : K) :
    Decidable (Drives s w d k) :=
  inferInstanceAs (Decidable (_ ∧ _))

instance decidableSystemGuard [DecidableEq R] (s : State K W Q D R) :
    ∀ a : Action K W Q D R, Decidable (system.guard s a)
  | .spawn _ _ _ _ | .call _ _ _ | .decide _ _ _ _ | .begin _ _ _ =>
      inferInstanceAs (Decidable (_ ∧ _))
  | .leave _ _ _ => inferInstanceAs (Decidable (_ ∧ _ ∧ _))
  | .aReady _ _ | .pollBranch _ _ | .branchPending _ _ | .branchReady _ _ _
  | .freeBranch _ _ _ => inferInstanceAs (Decidable (_ = _))
  | .drop k =>
      match h : (s.task k).stage with
      | .branch ra => isTrue (Or.inr ⟨ra, h⟩)
      | .pending => isTrue (Or.inl h)
      | .unmade | .spawned | .popping _ | .popped _ | .polling _ | .freeing _ _ | .awaiting _ _
      | .returned _ _ | .dropping | .dropped => isFalse (by simp [system, guard, h])
  | .pop _ _ _ none =>
      decidable_of_iff _ (and_iff_left fun d (hd : none = some d) =>
        absurd hd.symm (Option.some_ne_none d)).symm
  | .pop q _ _ (some d) =>
      decidable_of_iff (_ ∧ d ∈ s.tokens (.queued q)) (and_congr_right fun _ =>
        ⟨fun hm _ he => Option.some.inj he ▸ hm, fun h => h d rfl⟩)
  | .handle k a =>
      inferInstanceAs (Decidable (_ ∧ _ ∧ Join.guard (words D) (s.task k).join a))
  | .dispatch _ q d => inferInstanceAs (Decidable (d ∈ s.tokens (.queued q)))
  | .transfer _ d | .push _ d => inferInstanceAs (Decidable (d ∈ s.tokens .woken))
  | .pending w d k =>
      inferInstanceAs (Decidable (Drives s w d k ∧ Join.guard (words D) (s.task k).join .pending))
  | .dropWaker w d k =>
      inferInstanceAs
        (Decidable (Drives s w d k ∧ Join.guard (words D) (s.task k).join (.dropWaker false)))
  | .park w d k =>
      inferInstanceAs (Decidable (Drives s w d k ∧ Join.guard (words D) (s.task k).join .park))
  | .complete w d k _ =>
      inferInstanceAs
        (Decidable (Drives s w d k ∧ Join.guard (words D) (s.task k).join .complete))
  | .exit k a => inferInstanceAs (Decidable (_ ∧ Join.guard (words D) (s.task k).join a))
  | .wake _ => isTrue trivial

end Stackless

end Fork

end Cmpth

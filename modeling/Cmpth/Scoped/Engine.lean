import Mathlib.Logic.Function.Basic
import Cmpth.Core.System

/-!
# The Scoped Fork-Join Engine

`scoped::sync_engine`: worker threads that run `parallel_call` as a plain
nested call, with the second branch lying on the caller's own stack.

A `parallel_call(a, b)` builds a `StackTask` for `b` in its frame, pushes the
task's address on its worker's queue, calls `a`, and then either pops the task
back and runs it inline, or helps with other work until the task's latch is
set. A worker is therefore its run queue and its native call stack, and the
frames carry what a Rust frame of the same call keeps across the next call.
One action is one shared-memory operation of one worker, or one local step
between two of them.

Stack addresses come back into use, so a task is named by an address and the
memory behind it keeps its last contents. `StackTask.live` records whether the
frame it lies in has been left. Nothing in the engine reads that field.

The policies are left open: a steal may hit any other worker whose queue is
not empty, and a sweep may end without success at any time, as one whose
victims were empty or lost a race does.

## Main definitions

* `Prog`: A closure, as the calls it makes.
* `StackTask`: A task on its pusher's stack.
* `Frame`: A frame of a worker's native stack.
* `Control`: What a worker does at the top of its stack.
* `State`: The tasks, the workers and the pool's shutdown flag.
* `Action`: One operation of one worker.
* `system`: The engine as a guarded transition system.
* `Worker.refs`: The task references a worker queues or executes.
* `Safe`: No task reference outlives its frame.
* `LeavesConsumed`: No unwinding leaves a frame before its task is consumed.
-/

namespace Cmpth

namespace Scoped

/-- A closure run by the engine, as the calls it makes. Continuations take the
    results, so a program may be as adaptive as it likes. -/
inductive Prog (V : Type*) where
  | ret (v : V)
  | panic
  /-- `parallel_call(a, b)`, then `k` of both results. -/
  | parallelCall (a b : Prog V) (k : V → V → Prog V)
  /-- `std::panic::catch_unwind` around `p`. -/
  | catchUnwind (p : Prog V) (k : Option V → Prog V)

/-- A `StackTask` and whether the `parallel_call` frame it lies in still
    exists. -/
structure StackTask (V : Type*) where
  latch : Bool
  func : Option (Prog V)
  result : Option V
  live : Bool

/-- `StackTask::new`. -/
def StackTask.new {V : Type*} (f : Prog V) : StackTask V :=
  { latch := false, func := some f, result := none, live := true }

/-- One round of a loop around `try_run_one`. -/
inductive Seek where
  /-- The loop's own condition. -/
  | check
  /-- `local`: pop the own queue. -/
  | pop
  /-- `steal`: the sweep over the other workers. -/
  | steal
  deriving DecidableEq, Repr

/-- The loops that run whatever task they find. -/
inductive Loop (W A V : Type*) where
  /-- `idle_loop`, until the pool is finished. -/
  | idle
  /-- A worker thread's `while try_run_one` after its idle loop. -/
  | drain
  /-- `parallel_call` waiting for the latch of `t`. -/
  | help (t : A) (ra : V) (k : V → V → Prog V)
  /-- `SyncInit::drop` draining worker 0, on return (`some`) or unwind. -/
  | initDrain (handles : List W) (out : Option V)

/-- A frame of a worker's native stack. -/
inductive Frame (W A V : Type*) where
  /-- `parallel_call` while `a` runs. -/
  | call (t : A) (k : V → V → Prog V)
  /-- `a` has returned `ra`; about to `try_pop`. -/
  | pop (t : A) (ra : V) (k : V → V → Prog V)
  /-- Something else was popped; about to push it back. -/
  | pushBack (t : A) (ra : V) (k : V → V → Prog V) (other : A)
  /-- `run_inline`. -/
  | inline (t : A) (ra : V) (k : V → V → Prog V)
  /-- The latch was seen set; about to `take_result`. -/
  | take (t : A) (ra : V) (k : V → V → Prog V)
  /-- `execute_trampoline`, up to the closure's return. -/
  | exec (t : A)
  /-- `execute_trampoline`: about to write the result. -/
  | publish (t : A) (r : V)
  /-- `execute_trampoline`: about to set the latch. -/
  | setLatch (t : A)
  | catchUnwind (k : Option V → Prog V)
  /-- A loop around `try_run_one`. -/
  | seek (l : Loop W A V) (st : Seek)
  /-- `run` around the root closure, with the other threads' handles. -/
  | run (handles : List W)
  /-- A scope that owns a `SyncInit` guard. -/
  | init (handles : List W)
  /-- `shutdown`: about to `finish` the pool. -/
  | finish (handles : List W) (out : Option V)
  /-- `shutdown`: joining the other threads. -/
  | join (handles : List W) (out : Option V)

/-- What a worker thread does next, above its topmost frame. -/
inductive Control (V : Type*) where
  | run (p : Prog V)
  | ret (v : V)
  | unwind
  /-- The topmost frame continues. -/
  | step
  /-- The thread's function has returned. -/
  | exited
  /-- The thread was lost to a panic. -/
  | dead

/-- A worker's queue, its native stack and what it is about to do. -/
structure Worker (W A V : Type*) where
  deque : List A
  stack : List (Frame W A V)
  ctl : Control V

/-- The pool: the memory of the stack tasks, the workers, `finished`, and
    whether a panic during a panic has aborted the process. -/
structure State (W A V : Type*) where
  task : A → StackTask V
  worker : W → Worker W A V
  finished : Bool
  aborted : Bool

/-- The operations that have to be chosen. -/
inductive Action (W A : Type*) where
  /-- The worker's next operation; at a steal, a sweep without success. -/
  | step (w : W)
  /-- `parallel_call`: a new task at `t`, pushed on the own queue. -/
  | call (w : W) (t : A)
  /-- A successful `try_steal` on `v`. -/
  | steal (w v : W)
  deriving DecidableEq, Repr

variable {W A V : Type*}

/-- The task whose `parallel_call` frame this is. -/
def Frame.owns : Frame W A V → Option A
  | .call t _ | .pop t _ _ | .pushBack t _ _ _ | .inline t _ _ | .take t _ _
  | .seek (.help t _ _) _ => some t
  | _ => none

/-- The task this frame executes for its pusher. -/
def Frame.executes : Frame W A V → Option A
  | .exec t | .publish t _ | .setLatch t => some t
  | _ => none

/-- The task references a worker has: those in its queue and those it is
    executing. -/
def Worker.refs (wk : Worker W A V) : List A :=
  wk.deque ++ wk.stack.filterMap Frame.executes

/-- Every task reference in a queue or being executed refers to a task whose
    `parallel_call` frame has not been left. -/
def Safe (s : State W A V) : Prop :=
  ∀ w t, t ∈ (s.worker w).refs → (s.task t).live = true

section

variable [DecidableEq W] [DecidableEq A]

/-- Replace a worker's queue. -/
def State.setDeque (s : State W A V) (w : W) (d : List A) : State W A V :=
  { s with worker := Function.update s.worker w { s.worker w with deque := d } }

/-- Replace a worker's stack and what it does next. -/
def State.go (s : State W A V) (w : W) (stack : List (Frame W A V)) (ctl : Control V) :
    State W A V :=
  { s with worker := Function.update s.worker w { s.worker w with stack := stack, ctl := ctl } }

/-- Write to the memory of a task. -/
def State.modify (s : State W A V) (t : A) (f : StackTask V → StackTask V) : State W A V :=
  { s with task := Function.update s.task t (f (s.task t)) }

/-- The frame that holds the task at `t` is left. -/
def State.leave (s : State W A V) (t : A) : State W A V :=
  s.modify t fun x => { x with live := false }

/-- The worker starts a closure. `call` is where a `parallel_call` starts. -/
def start (s : State W A V) (w : W) : Prog V → List (Frame W A V) → State W A V
  | .ret v, st => s.go w st (.ret v)
  | .panic, st => s.go w st .unwind
  | .parallelCall .., _ => s
  | .catchUnwind p k, st => s.go w (.catchUnwind k :: st) (.run p)

/-- A closure returns `v` to the frame that called it. -/
def ret (s : State W A V) (w : W) (v : V) : List (Frame W A V) → State W A V
  | .call t k :: st => s.go w (.pop t v k :: st) .step
  | .inline t ra k :: st => (s.leave t).go w st (.run (k ra v))
  | .exec t :: st => s.go w (.publish t v :: st) .step
  | .catchUnwind k :: st => s.go w st (.run (k (some v)))
  | .run hs :: st => s.go w (.finish hs (some v) :: st) .step
  | .init hs :: st => s.go w (.seek (.initDrain hs (some v)) .check :: st) .step
  | _ => s

/-- A panic unwinds the topmost frame. The latch of a task whose closure
    panics is not set, and nothing in a `parallel_call` frame waits for its
    task while unwinding. -/
def unwind (s : State W A V) (w : W) : List (Frame W A V) → State W A V
  | .call t _ :: st | .pop t _ _ :: st | .pushBack t _ _ _ :: st | .inline t _ _ :: st
  | .take t _ _ :: st | .seek (.help t _ _) _ :: st => (s.leave t).go w st .unwind
  | .exec _ :: st => s.go w st .unwind
  | .catchUnwind k :: st => s.go w st (.run (k none))
  | .init hs :: st => s.go w (.seek (.initDrain hs none) .check :: st) .step
  -- A second panic leaves the destructor of a guard that is being unwound.
  | .seek (.initDrain _ none) _ :: _ | .join _ none :: _ => { s with aborted := true }
  | .seek _ _ :: _ | .join _ (some _) :: _ | .run _ :: _ => s.go w [] .dead
  | _ => s

/-- The topmost frame continues. -/
def advance (s : State W A V) (w : W) : List (Frame W A V) → State W A V
  | .pop t ra k :: st =>
      match (s.worker w).deque with
      | [] => s.go w (.seek (.help t ra k) .check :: st) .step
      | x :: d =>
          if x = t then (s.setDeque w d).go w (.inline t ra k :: st) .step
          else (s.setDeque w d).go w (.pushBack t ra k x :: st) .step
  | .pushBack t ra k x :: st =>
      (s.setDeque w (x :: (s.worker w).deque)).go w (.seek (.help t ra k) .check :: st) .step
  | .inline t ra k :: st =>
      match (s.task t).func with
      | some p =>
          (s.modify t fun x => { x with func := none }).go w (.inline t ra k :: st) (.run p)
      | none => s.go w (.inline t ra k :: st) .unwind
  | .take t ra k :: st =>
      match (s.task t).result with
      | some rb =>
          ((s.modify t fun x => { x with result := none }).leave t).go w st (.run (k ra rb))
      | none => s.go w (.take t ra k :: st) .unwind
  | .exec t :: st =>
      match (s.task t).func with
      | some p => (s.modify t fun x => { x with func := none }).go w (.exec t :: st) (.run p)
      | none => s.go w (.exec t :: st) .unwind
  | .publish t r :: st =>
      (s.modify t fun x => { x with result := some r }).go w (.setLatch t :: st) .step
  | .setLatch t :: st => (s.modify t fun x => { x with latch := true }).go w st .step
  | .seek l .check :: st =>
      match l with
      | .idle =>
          if s.finished then s.go w (.seek .drain .check :: st) .step
          else s.go w (.seek .idle .pop :: st) .step
      | .help t ra k =>
          if (s.task t).latch then s.go w (.take t ra k :: st) .step
          else s.go w (.seek (.help t ra k) .pop :: st) .step
      | l => s.go w (.seek l .pop :: st) .step
  | .seek l .pop :: st =>
      match (s.worker w).deque with
      | [] => s.go w (.seek l .steal :: st) .step
      | x :: d => (s.setDeque w d).go w (.exec x :: .seek l .check :: st) .step
  | .seek l .steal :: st =>
      match l with
      | .drain => s.go w [] .exited
      | .initDrain hs out => s.go w (.finish hs out :: st) .step
      | l => s.go w (.seek l .check :: st) .step
  | .finish hs out :: st => { s.go w (.join hs out :: st) .step with finished := true }
  | .join [] out :: _ => s.go w [] (if out.isSome then .exited else .dead)
  | .join (h :: hs) out :: st =>
      match (s.worker h).ctl with
      | .dead => s.go w (.join hs out :: st) .unwind
      | _ => s.go w (.join hs out :: st) .step
  | _ => s

/-- `Action.step`. -/
def step (s : State W A V) (w : W) : State W A V :=
  match (s.worker w).ctl with
  | .run p => start s w p (s.worker w).stack
  | .ret v => ret s w v (s.worker w).stack
  | .unwind => unwind s w (s.worker w).stack
  | .step => advance s w (s.worker w).stack
  | .exited | .dead => s

/-- `Action.call`: `StackTask::new`, and its reference pushed. -/
def call (s : State W A V) (w : W) (t : A) : State W A V :=
  match (s.worker w).ctl with
  | .run (.parallelCall a b k) =>
      ((s.modify t fun _ => .new b).setDeque w (t :: (s.worker w).deque)).go w
        (.call t k :: (s.worker w).stack) (.run a)
  | _ => s

/-- `Action.steal`: thieves take the oldest item. -/
def steal (s : State W A V) (w v : W) : State W A V :=
  match (s.worker w).stack, (s.worker v).deque.getLast? with
  | .seek l .steal :: st, some x =>
      (s.setDeque v (s.worker v).deque.dropLast).go w (.exec x :: .seek l .check :: st) .step
  | _, _ => s

/-- What an action does. -/
def next (s : State W A V) : Action W A → State W A V
  | .step w => step s w
  | .call w t => call s w t
  | .steal w v => steal s w v

/-- When a worker can take its next step: its thread is alive, and the thread
    it joins, if that is what it does, has ended. -/
def canStep (s : State W A V) (w : W) : Bool :=
  match (s.worker w).ctl, (s.worker w).stack with
  | .run (.parallelCall ..), _ => false
  | .exited, _ | .dead, _ => false
  | .step, .join (h :: _) _ :: _ =>
      match (s.worker h).ctl with
      | .exited | .dead => true
      | _ => false
  | _, _ => true

/-- A fresh address is one that no live frame has. -/
def canCall (s : State W A V) (w : W) (t : A) : Bool :=
  match (s.worker w).ctl with
  | .run (.parallelCall ..) => !(s.task t).live
  | _ => false

/-- The worker is at its steal, and the victim has something in its queue. -/
def canSteal (s : State W A V) (w v : W) : Bool :=
  match (s.worker w).ctl, (s.worker w).stack with
  | .step, .seek _ .steal :: _ => decide (v ≠ w) && !(s.worker v).deque.isEmpty
  | _, _ => false

/-- When an action can be taken. -/
def enabled (s : State W A V) : Action W A → Bool
  | .step w => !s.aborted && canStep s w
  | .call w t => !s.aborted && canCall s w t
  | .steal w v => !s.aborted && canSteal s w v

/-- The pool just after `start_workers`: worker 0 is about to run the root
    closure `p`, inside `run` or under a `SyncInit` guard, and the threads of
    all other workers are in their idle loops. -/
structure Started (s : State W A V) (w₀ : W) (handles : List W) (p : Prog V) : Prop where
  others : handles.Nodup ∧ ∀ w, w ∈ handles ↔ w ≠ w₀
  root : s.worker w₀ = { deque := [], stack := [.run handles], ctl := .run p } ∨
    s.worker w₀ = { deque := [], stack := [.init handles], ctl := .run p }
  idle : ∀ w, w ≠ w₀ →
    s.worker w = { deque := [], stack := [.seek .idle .check], ctl := .step }
  fresh : ∀ t, (s.task t).live = false
  running : s.finished = false ∧ s.aborted = false

/-- The engine as a guarded transition system. -/
def system : System (State W A V) (Action W A) where
  init s := ∃ w₀ handles p, Started s w₀ handles p
  guard s a := enabled s a = true
  next := next

instance decidableSystemGuard (s : State W A V) (a : Action W A) :
    Decidable ((system (V := V)).guard s a) :=
  inferInstanceAs (Decidable (_ = _))

/-- A step that unwinds a `parallel_call` frame finds its task consumed: no
    worker has it in its queue or is executing it. -/
def LeavesConsumed (s : State W A V) : Action W A → Prop
  | .step w =>
      match (s.worker w).ctl, (s.worker w).stack with
      | .unwind, f :: _ => ∀ t, f.owns = some t → ∀ w', t ∉ (s.worker w').refs
      | _, _ => True
  | _ => True

end

end Scoped

end Cmpth

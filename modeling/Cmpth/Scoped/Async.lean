import Mathlib.Logic.Function.Basic
import Cmpth.Core.System

/-!
# The Scoped Async Engine

`scoped::async_engine`: `parallel_call` as a future. Polling it pushes an entry
for the second branch on the polling worker's queue and polls the first. When
that is done it pops, and either has its own entry back and drives the branch in
place, or registers its waker on the latch of the branch.

The branch is in an `Arc`, one reference of which is leaked into the queue
entry. Whoever takes the entry makes it a reference again. An entry is named by
its call, as the memory it points to is not freed while it exists.

A worker may be in several polls and drives at once, one on top of the other on
its native stack. The order is left open, and so are the futures: what a poll of
one does, how often it is polled, and on which worker. A poll that returns
`Pending` into `drive` changes nothing here. What a `ParallelInvoke` returns
cannot be polled twice at a time, which is what `Pin<&mut Self>` says.

## Main definitions

* `AsyncLatch`, `AsyncTask`: The storage of a second branch.
* `PollPc`: How far a poll of a `ParallelInvoke` has come.
* `DrivePc`: How far a thief has come with an entry.
* `ParallelInvoke`: A call and its branch.
* `State`, `Action`, `system`: The engine as a guarded transition system.
-/

namespace Cmpth

namespace Scoped

namespace Async

/-- `PENDING`, `DONE`, or a boxed waker, named by its registration. -/
inductive AsyncLatch where
  | pending
  | done
  | waker (n : ℕ)
  deriving DecidableEq, Repr

/-- What is in the branch's slot of the storage. -/
inductive Body where
  | pending
  | taken
  deriving DecidableEq, Repr

/-- The shared state of a second branch, with the strong count of its `Arc` and
    how often it was freed. -/
structure AsyncTask (V : Type*) where
  body : Body
  result : Option V
  latch : AsyncLatch
  strong : ℕ
  freed : ℕ

/-- `State<Fa>`. -/
inductive InvokeState (V : Type*) where
  | runningA
  | waitingB (ra : V)
  | done

/-- `ParallelInvoke::poll`, on the worker it is called on. -/
inductive PollPc (I W V : Type*) where
  | none
  /-- About to look whether the entry was pushed. -/
  | start (w : W)
  /-- About to push the entry. -/
  | pushing (w : W)
  /-- About to look at the state. -/
  | entered (w : W)
  /-- In the poll of `a`. -/
  | running (w : W)
  /-- About to pop. -/
  | popping (w : W)
  /-- About to push back another entry. -/
  | pushBack (w : W) (other : I)
  /-- About to make the own entry a reference again and drop it. -/
  | reclaiming
  /-- `drive_to_completion`: about to take the body. -/
  | taking
  /-- `drive_to_completion`: in `drive`. -/
  | driving
  /-- `drive_to_completion`: about to store the result. -/
  | storing (rb : V)
  /-- `drive_to_completion`: about to set the latch. -/
  | setting
  /-- `register`: about to load. -/
  | loading
  /-- `register`: has `cur`; about to exchange. -/
  | registering (cur : AsyncLatch)
  /-- About to take the result. -/
  | finishing

/-- `execute_trampoline`, by a worker that has taken an entry. -/
inductive DrivePc (I V : Type*) where
  | none
  | taking (i : I)
  | driving (i : I)
  | storing (i : I) (rb : V)
  | setting (i : I)
  /-- About to drop the reference. -/
  | dropping (i : I)

/-- Whether the future that `parallel_call` returns exists. -/
inductive Life where
  | unborn
  | live
  | gone
  deriving DecidableEq, Repr

/-- A call: the future and its branch. The other fields are bookkeeping: what
    `a`'s and `b`'s futures have returned and how often, how often `b`'s was
    taken, how often the entry's reference was reclaimed, whether a thief did,
    and what the call has returned. -/
structure ParallelInvoke (I W V : Type*) where
  life : Life
  state : InvokeState V
  pushed : Bool
  pc : PollPc I W V
  task : AsyncTask V
  registered : ℕ
  retA : Option V
  retB : Option V
  readyA : ℕ
  readyB : ℕ
  driven : ℕ
  reclaimed : ℕ
  stolen : Bool
  output : Option (V × V)

/-- The calls, the run queues of the workers, newest first, and what thieves
    are doing. -/
structure State (I W E V : Type*) where
  invoke : I → ParallelInvoke I W V
  queue : W → List I
  thief : E → DrivePc I V

/-- The operations of polls, of thieves and of the queues. -/
inductive Action (I W E V : Type*) where
  /-- `parallel_call`. -/
  | create (i : I)
  /-- `ParallelInvoke::poll`. -/
  | poll (i : I) (w : W)
  /-- The poll's next operation. -/
  | step (i : I)
  /-- The weak exchange of `register` fails for no reason. -/
  | spurious (i : I)
  /-- The poll of `a` returns `Pending`. -/
  | pendingA (i : I)
  /-- The poll of `a` returns `Ready`. -/
  | readyA (i : I) (ra : V)
  /-- The poll of `a` panics. -/
  | panicA (i : I)
  /-- `b`, driven in place, is done. -/
  | readyB (i : I) (rb : V)
  /-- `b`, driven in place, panics. -/
  | panicB (i : I)
  /-- The future is dropped. -/
  | drop (i : I)
  /-- A worker takes the newest entry of its own queue. -/
  | pop (e : E) (w : W)
  /-- A worker takes the oldest entry of a queue. -/
  | steal (e : E) (w : W)
  /-- The thief's next operation. -/
  | execute (e : E)
  /-- `b`, driven by a thief, is done. -/
  | ready (e : E) (rb : V)
  /-- `b`, driven by a thief, panics. -/
  | panic (e : E)

variable {I W E V : Type*}

/-- A reference of the `Arc` is dropped. -/
def AsyncTask.release (t : AsyncTask V) : AsyncTask V :=
  { t with
    strong := t.strong - 1
    freed := if t.strong = 1 then t.freed + 1 else t.freed }

/-- `take_body`: the branch is taken for the first time, or it panics. -/
def ParallelInvoke.takeBody (c : ParallelInvoke I W V) : ParallelInvoke I W V :=
  { c with
    task := { c.task with body := .taken }
    driven := c.driven + 1 }

/-- `parallel_call(mk_a, mk_b)`. -/
def ParallelInvoke.new : ParallelInvoke I W V where
  life := .live
  state := .runningA
  pushed := false
  pc := .none
  task := { body := .pending, result := none, latch := .pending, strong := 1, freed := 0 }
  registered := 0
  retA := none
  retB := none
  readyA := 0
  readyB := 0
  driven := 0
  reclaimed := 0
  stolen := false
  output := none

section

variable [DecidableEq I] [DecidableEq W] [DecidableEq E]

/-- Store a call. -/
def State.set (s : State I W E V) (i : I) (c : ParallelInvoke I W V) : State I W E V :=
  { s with invoke := Function.update s.invoke i c }

/-- Store a worker's queue. -/
def State.setQueue (s : State I W E V) (w : W) (q : List I) : State I W E V :=
  { s with queue := Function.update s.queue w q }

/-- Put a thief in another place. -/
def State.setThief (s : State I W E V) (e : E) (pc : DrivePc I V) : State I W E V :=
  { s with thief := Function.update s.thief e pc }

/-- The next operation of a poll. A panic leaves the poll. -/
def step (s : State I W E V) (i : I) : State I W E V :=
  let c := s.invoke i
  match c.pc with
  | .start w =>
      if c.pushed = true then s.set i { c with pc := .entered w }
      else
        -- `as_task_ref` leaks a reference.
        s.set i
          { c with
            pushed := true
            pc := .pushing w
            task := { c.task with strong := c.task.strong + 1 } }
  | .pushing w => (s.setQueue w (i :: s.queue w)).set i { c with pc := .entered w }
  | .entered w =>
      match c.state with
      | .runningA => s.set i { c with pc := .running w }
      | .waitingB _ => s.set i { c with pc := .popping w }
      -- "ParallelInvoke polled after completion"
      | .done => s.set i { c with pc := .none }
  | .popping w =>
      match s.queue w with
      | [] => s.set i { c with pc := .loading }
      | x :: q =>
          if x = i then (s.setQueue w q).set i { c with pc := .reclaiming }
          else (s.setQueue w q).set i { c with pc := .pushBack w x }
  | .pushBack w x => (s.setQueue w (x :: s.queue w)).set i { c with pc := .loading }
  | .reclaiming =>
      s.set i
        { c with
          pc := .taking
          task := c.task.release
          reclaimed := c.reclaimed + 1 }
  | .taking =>
      match c.task.body with
      | .pending => s.set i { c.takeBody with pc := .driving }
      -- "AsyncTask driven twice"
      | .taken => s.set i { c with pc := .none }
  | .storing rb =>
      s.set i { c with pc := .setting, task := { c.task with result := some rb } }
  | .setting => s.set i { c with pc := .finishing, task := { c.task with latch := .done } }
  | .loading => s.set i { c with pc := .registering c.task.latch }
  | .registering cur =>
      if cur = .done then s.set i { c with pc := .finishing }
      else if c.task.latch = cur then
        s.set i
          { c with
            pc := .none
            task := { c.task with latch := .waker c.registered }
            registered := c.registered + 1 }
      else s.set i { c with pc := .registering c.task.latch }
  | .finishing =>
      match c.task.result, c.state with
      | some rb, .waitingB ra =>
          s.set i
            { c with
              pc := .none
              task := { c.task with result := none }
              state := .done
              output := some (ra, rb) }
      -- "AsyncTask latch set without a result", and an unreachable state.
      | _, _ => s.set i { c with pc := .none }
  | .none | .running _ | .driving => s

/-- A thief has the entry of `i`. -/
def take (s : State I W E V) (e : E) (i : I) : State I W E V :=
  (s.setThief e (.taking i)).set i
    { s.invoke i with
      reclaimed := (s.invoke i).reclaimed + 1
      stolen := true }

/-- The next operation of a thief. A panic leaves `drive_to_completion`. -/
def execute (s : State I W E V) (e : E) : State I W E V :=
  match s.thief e with
  | .taking i =>
      match (s.invoke i).task.body with
      | .pending => (s.setThief e (.driving i)).set i (s.invoke i).takeBody
      | .taken => s.setThief e (.dropping i)
  | .storing i rb =>
      (s.setThief e (.setting i)).set i
        { s.invoke i with task := { (s.invoke i).task with result := some rb } }
  | .setting i =>
      (s.setThief e (.dropping i)).set i
        { s.invoke i with task := { (s.invoke i).task with latch := .done } }
  | .dropping i =>
      (s.setThief e .none).set i { s.invoke i with task := (s.invoke i).task.release }
  | .none | .driving _ => s

/-- What an action does. -/
def next (s : State I W E V) : Action I W E V → State I W E V
  | .create i => s.set i .new
  | .poll i w => s.set i { s.invoke i with pc := .start w }
  | .step i => step s i
  | .spurious i => s.set i { s.invoke i with pc := .registering (s.invoke i).task.latch }
  | .pendingA i | .panicA i | .panicB i => s.set i { s.invoke i with pc := .none }
  | .readyA i ra =>
      match (s.invoke i).pc with
      | .running w =>
          s.set i
            { s.invoke i with
              pc := .popping w
              state := .waitingB ra
              retA := some ra
              readyA := (s.invoke i).readyA + 1 }
      | _ => s
  | .readyB i rb =>
      s.set i
        { s.invoke i with
          pc := .storing rb
          retB := some rb
          readyB := (s.invoke i).readyB + 1 }
  | .drop i =>
      s.set i { s.invoke i with life := .gone, task := (s.invoke i).task.release }
  | .pop e w =>
      match s.queue w with
      | [] => s
      | x :: q => take (s.setQueue w q) e x
  | .steal e w =>
      match (s.queue w).getLast? with
      | none => s
      | some x => take (s.setQueue w (s.queue w).dropLast) e x
  | .execute e => execute s e
  | .ready e rb =>
      match s.thief e with
      | .driving i =>
          (s.setThief e (.storing i rb)).set i
            { s.invoke i with
              retB := some rb
              readyB := (s.invoke i).readyB + 1 }
      | _ => s
  | .panic e =>
      match s.thief e with
      | .driving i => s.setThief e (.dropping i)
      | _ => s

end

/-- The poll has an operation to do that is its own. -/
def PollPc.steps : PollPc I W V → Bool
  | .none | .running _ | .driving => false
  | _ => true

/-- No poll is going on. -/
def PollPc.idle : PollPc I W V → Bool
  | .none => true
  | _ => false

/-- The poll is inside `a`. -/
def PollPc.inA : PollPc I W V → Bool
  | .running _ => true
  | _ => false

/-- The poll is inside `b`. -/
def PollPc.inB : PollPc I W V → Bool
  | .driving => true
  | _ => false

/-- The poll is about to exchange in `register`. -/
def PollPc.exchanges : PollPc I W V → Bool
  | .registering cur => decide (cur ≠ .done)
  | _ => false

/-- The thief has an operation to do that is its own. -/
def DrivePc.steps : DrivePc I V → Bool
  | .none | .driving _ => false
  | _ => true

/-- The thief has no entry. -/
def DrivePc.idle : DrivePc I V → Bool
  | .none => true
  | _ => false

/-- The thief is inside `b`. -/
def DrivePc.inB : DrivePc I V → Bool
  | .driving _ => true
  | _ => false

/-- When an action can be taken. -/
def guard (s : State I W E V) : Action I W E V → Bool
  | .create i => decide ((s.invoke i).life = .unborn)
  | .poll i _ | .drop i => decide ((s.invoke i).life = .live) && (s.invoke i).pc.idle
  | .step i => (s.invoke i).pc.steps
  | .spurious i => (s.invoke i).pc.exchanges
  | .pendingA i | .readyA i _ | .panicA i => (s.invoke i).pc.inA
  | .readyB i _ | .panicB i => (s.invoke i).pc.inB
  | .pop e w | .steal e w => (s.thief e).idle && !(s.queue w).isEmpty
  | .execute e => (s.thief e).steps
  | .ready e _ | .panic e => (s.thief e).inB

/-- Before the first call. -/
def init (s : State I W E V) : Prop :=
  (∀ i, (s.invoke i).life = .unborn ∧ (s.invoke i).pc = .none ∧
    (s.invoke i).pushed = false ∧ (s.invoke i).stolen = false) ∧
    (∀ w, s.queue w = []) ∧ ∀ e, s.thief e = .none

/-- The engine as a guarded transition system. -/
def system [DecidableEq I] [DecidableEq W] [DecidableEq E] :
    System (State I W E V) (Action I W E V) where
  init := init
  guard s a := guard s a = true
  next := next

instance decidableSystemGuard [DecidableEq I] [DecidableEq W] [DecidableEq E]
    (s : State I W E V) (a : Action I W E V) :
    Decidable ((system (I := I) (W := W) (E := E) (V := V)).guard s a) :=
  inferInstanceAs (Decidable (_ = _))

section

-- The proofs take these apart in parallel: their equations are made here, once.
attribute [local simp] guard next

end

end Async

end Scoped

end Cmpth

import Cmpth.Core.System
import Cmpth.Core.Update
import Cmpth.Pool.FreeList

/-!
# The Pools of Several Scheduler Instances

The pools of all scheduler instances of one system, and the handles, threads, tasks and frames
that go from one to another.

An instance has three pools with the same lists: `task_pool` for the descriptors of threads,
`async_task_pool` for those of async tasks, and `recursion_pool` for the frames of `recurse`. The
pool is found through the worker that runs the code, and the home index is found in the node.
Nothing ties the two together: handles, branches and frames are `Send`, and none of them, nor a
descriptor, says which instance it belongs to. `node_take` and `node_give` index the arrays of the
pool without a check, and what they are called with is recorded in `calls`. For a frame that was
made off every worker there is no node, and what is taken for its home index is what lies before
the memory.

An instance may be started at any time, with any number of workers. What code does other than to
make tasks and frames, to join, await and give up handles, to wake, and to end does not matter
here. Who holds a handle or a frame is left open, so that any code may use it; and so is which of
several polls on one stack is the innermost. The operations on the lists of one pool are single
steps, and a node is an allocation, not an address.

## Main definitions

* `Which`, `Kind`, `Made`: The pools of an instance, and who allocated a piece of memory.
* `Call`, `Call.Right`: A call of `node_take` or `node_give`; the indices are in range, and the
  pool is the node's own.
* `Base`, `Place`, `Word`: Where threads and tasks are, and their join words.
* `State`, `Action`, `system`: The instances as a guarded transition system.
* `State.Own`: The worker's pool is the one that the memory came from, or none is needed.
* `AtHome`: Whatever is given up or woken is so by a worker of its own instance.
* `Inv`: The invariant of the runs that keep at home.

## Theorems

* `Inv.makes`, `Inv.setPool`, `Inv.setPlace`, `Inv.setCur`, `Inv.setWord`, `Inv.setPending`: How the
  parts of the state change.
* `Inv.setHandle`, `Inv.setBranch`, `Inv.setFrame`, `Inv.prepare`: Handles, branches and frames are
  used and given up.
* `inst_make`: Memory that is allocated changes the instance of nothing there is.
* `inv_obtain`, `inv_reclaim`: What a pool hands out and what it gets back are its own nodes.
* `Inv.runs`: The code that runs on a worker belongs to its instance.
* `State.Runs.lt`: Who runs on a worker runs on one of the instance.
* `Inv.fits_base`: A poll starts at home, on the loop or on the stack of a thread.
* `lt_update`: An instance that is started was not in use.
* `Inv.starts`: More workers are there, and all indices are still in range.
* `inv_start`, `inv_spawned`, `inv_join`, `inv_await`, `inv_exit`, `inv_complete`: What the larger
  steps keep.
* `inv_drop`: A handle is dropped: what has finished is given up, and else the task is left to
  itself.
* `inv_settle`: What ends is settled where its descriptor belongs, and whoever has waited for it is
  of the same instance.
* `inv_next`: Every step at home keeps the invariant.
* `inv_init`: The invariant holds at the beginning.
* `calls_right`: As long as all steps are at home, every call is right.
* `calls_right_dropped`: Handles, tasks and frames that stay in their instance.
* `foreign_drop`: A handle, a branch or a frame dropped on a worker of another instance makes a call
  that is not right.
-/

namespace Cmpth

namespace Instances

open Pool (nodeTake nodeGive)

/-- The pools of an instance. -/
inductive Which where
  | task
  | async
  | recursion
  deriving DecidableEq, Repr

/-- How a piece of memory came about. -/
inductive Kind where
  /-- Of a size that the free lists of the pool serve. -/
  | pooled
  /-- For one request only. -/
  | oversized
  /-- `InitState::caller_desc`. -/
  | caller
  deriving DecidableEq, Repr

/-- Who allocated a descriptor or a frame: the instance, or none for a frame that was made off
    every worker. A node stores `allocWk` and whether it is oversized; before a frame without a
    node, `allocWk` is what happens to lie there. -/
structure Made (I : Type*) where
  inst : Option I
  which : Which
  allocWk : Nat
  kind : Kind
  deriving DecidableEq, Repr

/-- The join word of a thread or a task: a thread in `join`, a task that awaits the handle, or a
    foreign waker. -/
inductive Word (N : Type*) where
  | running
  | joiner (t : N)
  | awaiter (t : N)
  | waker
  | finished
  | detached
  deriving DecidableEq, Repr

/-- What a poll runs on: the scheduler loop of a worker, or the stack of a thread. -/
inductive Base (I N : Type*) where
  | loop (w : I × Nat)
  | thread (t : N)
  deriving DecidableEq, Repr

/-- Where a thread is that does not run, and where a task is. -/
inductive Place (I N : Type*) where
  | elsewhere
  /-- In a run queue of the instance, or in its external queue. -/
  | queued (i : I)
  /-- Blocked or parked, until somebody wakes it. -/
  | waiting
  | polled (b : Base I N)
  deriving DecidableEq, Repr

/-- A call of `node_take` by a worker, or of `node_give` for a node of a worker `allocWk` of the
    instance `owner`. -/
inductive Call (I : Type*) where
  | take (pool : I) (which : Which) (curWk : Nat)
  | give (pool : I) (which : Which) (curWk allocWk : Nat) (owner : Option I)
  deriving DecidableEq, Repr

variable {I N : Type*}

/-- Every index that is used unchecked is in range, and the node is the pool's own. -/
def Call.Right (num : I → Nat) : Call I → Prop
  | .take pool _ curWk => curWk < num pool
  | .give pool _ curWk allocWk owner =>
      curWk < num pool ∧ allocWk < num pool ∧ owner = some pool

instance [DecidableEq I] (num : I → Nat) : ∀ c : Call I, Decidable (c.Right num)
  | .take .. => inferInstanceAs (Decidable (_ < _))
  | .give .. => inferInstanceAs (Decidable (_ ∧ _))

/-- The instances. `num` is their number of workers, none before they are started; `cur` the
    thread that runs on a worker, if the loop does not; `branch` the branches of the stackless
    `parallel_call` that were not stolen, and `frame` the frames there are; `pending` the thread
    whose result a resumed joiner is about to take. -/
structure State (I N : Type*) where
  num : I → Nat
  pools : I → Which → Pool.Lists N
  made : N → Option (Made I)
  cur : I × Nat → Option N
  place : N → Place I N
  word : N → Word N
  handle : N → Bool
  branch : N → Bool
  frame : N → Bool
  pending : N → Option N
  calls : List (Call I)

/-- The operations of threads and tasks, on a worker or off every one. -/
inductive Action (I N : Type*) where
  /-- `init`, on a thread with the descriptor `c`. -/
  | start (i : I) (n : Nat) (c : N)
  /-- `run_async`, with the root task `c`. -/
  | startAsync (i : I) (n : Nat) (c : N)
  | dispatch (w : I × Nat) (t : N)
  /-- A task is popped and polled, by a loop or by `try_reclaim_and_run`. -/
  | poll (w : I × Nat) (b : Base I N) (t : N)
  /-- `spawn`: the child starts, and its parent is queued. `fresh` is the descriptor if memory
      has to be allocated, and `big` whether the request is oversized. -/
  | spawn (w : I × Nat) (t fresh : N) (big : Bool)
  /-- The stackful `parallel_call`: the branch is queued. -/
  | fork (w : I × Nat) (t fresh : N) (big : Bool)
  /-- The same: the branch has not been stolen. -/
  | runInline (w : I × Nat) (t b : N)
  /-- `spawn_async`, and the stackless `parallel_call` with its branch. -/
  | spawnAsync (w : I × Nat) (x fresh : N) (big : Bool)
  /-- The stackless `parallel_call`: the branch has not been stolen. -/
  | unfork (w : I × Nat) (x n : N)
  /-- `BranchPoll`: its future is ready, or it is dropped. -/
  | freeBranch (w : I × Nat) (x n : N)
  | freeBranchOff (n : N)
  | yield (w : I × Nat) (t : N)
  | suspend (w : I × Nat) (t : N)
  /-- A poll returns `Pending`: the task has parked, or is queued again. -/
  | pend (w : I × Nat) (t : N)
  | requeue (w : I × Nat) (t : N)
  | wake (w : I × Nat) (x u : N)
  /-- A wake off every worker, by way of the external queue. -/
  | wakeOff (u : N) (i : I)
  /-- `join`, up to the result or to the registration. -/
  | join (w : I × Nat) (t n : N)
  /-- `join`, after the joiner was resumed. -/
  | takeResult (w : I × Nat) (t n : N)
  /-- `JoinHandle::poll`, up to the result or to the registration. -/
  | await (w : I × Nat) (x n : N)
  | awaitOff (n : N)
  /-- `JoinHandle::drop`. -/
  | drop (w : I × Nat) (x n : N)
  | dropOff (n : N)
  /-- `exit_with_result`. A joiner is switched to, or it is pushed. -/
  | exit (w : I × Nat) (t : N) (handoff : Bool)
  /-- The end of `poll_spawned_task`. -/
  | complete (w : I × Nat) (t : N) (b : Base I N)
  /-- `recurse`. -/
  | recurse (w : I × Nat) (x fresh : N) (big : Bool)
  | recurseOff (fresh : N) (big : Bool) (junk : Nat)
  /-- `RecursionFrame::drop`. -/
  | dropFrame (w : I × Nat) (x f : N)
  | dropFrameOff (f : N)
  deriving DecidableEq, Repr

/-- The instance that allocated a descriptor or a frame. -/
def State.inst (s : State I N) (n : N) : Option I :=
  (s.made n).bind Made.inst

/-- It was allocated for one request only. -/
def State.Oversized (s : State I N) (n : N) : Prop :=
  ∃ m ∈ s.made n, m.kind = .oversized

/-- What a poll runs on is on the worker. -/
def State.On (s : State I N) (w : I × Nat) : Base I N → Prop
  | .loop v => v = w ∧ s.cur w = none
  | .thread t => s.cur w = some t ∧ s.pending t = none

/-- The thread runs on the worker, and is not about to take a result. -/
def State.RunsThread (s : State I N) (w : I × Nat) (t : N) : Prop :=
  w.2 < s.num w.1 ∧ s.cur w = some t ∧ s.pending t = none

/-- The task is polled on the worker. -/
def State.Polls (s : State I N) (w : I × Nat) (t : N) : Prop :=
  w.2 < s.num w.1 ∧ match s.place t with
    | .polled b => s.On w b
    | .elsewhere | .queued _ | .waiting => False

/-- The code of a thread or of a task runs on the worker. -/
def State.Runs (s : State I N) (w : I × Nat) (x : N) : Prop :=
  s.RunsThread w x ∨ s.Polls w x

/-- A piece of memory that was not allocated yet. -/
def State.Fresh (s : State I N) (n : N) : Prop :=
  (s.made n).isNone = true

section

variable [DecidableEq I] [DecidableEq N]

instance (s : State I N) (n : N) : Decidable (s.Oversized n) :=
  inferInstanceAs (Decidable (∃ m ∈ s.made n, m.kind = .oversized))

instance (s : State I N) (w : I × Nat) : ∀ b : Base I N, Decidable (s.On w b)
  | .loop _ | .thread _ => inferInstanceAs (Decidable (_ ∧ _))

instance (s : State I N) (w : I × Nat) (t : N) : Decidable (s.RunsThread w t) :=
  inferInstanceAs (Decidable (_ ∧ _))

instance (s : State I N) (w : I × Nat) (t : N) : Decidable (s.Polls w t) := by
  unfold State.Polls
  cases s.place t <;> infer_instance

instance (s : State I N) (w : I × Nat) (x : N) : Decidable (s.Runs w x) :=
  inferInstanceAs (Decidable (_ ∨ _))

instance (s : State I N) (n : N) : Decidable (s.Fresh n) :=
  inferInstanceAs (Decidable (_ = _))

end

namespace State

variable [DecidableEq I] [DecidableEq N]

/-- A worker goes on with a thread, or with its loop. -/
def setCur (s : State I N) (w : I × Nat) (x : Option N) : State I N :=
  { s with cur := Function.update s.cur w x }

/-- Put a thread or task in another place. -/
def setPlace (s : State I N) (t : N) (x : Place I N) : State I N :=
  { s with place := Function.update s.place t x }

/-- Store a join word. -/
def setWord (s : State I N) (n : N) (x : Word N) : State I N :=
  { s with word := Function.update s.word n x }

/-- Store what a thread gives up after its switch. -/
def setPending (s : State I N) (t : N) (x : Option N) : State I N :=
  { s with pending := Function.update s.pending t x }

/-- Whether a handle is in use. -/
def setHandle (s : State I N) (n : N) (x : Bool) : State I N :=
  { s with handle := Function.update s.handle n x }

/-- Whether a `BranchPoll` has the memory. -/
def setBranch (s : State I N) (n : N) (x : Bool) : State I N :=
  { s with branch := Function.update s.branch n x }

/-- Whether a frame is in use. -/
def setFrame (s : State I N) (f : N) (x : Bool) : State I N :=
  { s with frame := Function.update s.frame f x }

/-- Memory is allocated. -/
def make (s : State I N) (n : N) (m : Made I) : State I N :=
  { s with made := Function.update s.made n (some m) }

/-- The lists of a pool after a call. -/
def setPool (s : State I N) (i : I) (k : Which) (l : Pool.Lists N) (call : Call I) : State I N :=
  { s with
    pools := Function.update s.pools i (Function.update (s.pools i) k l)
    calls := call :: s.calls }

/-- `alloc` of a pool of the worker's instance. -/
def obtain (s : State I N) (k : Which) (w : I × Nat) (fresh : N) (big : Bool) : N × State I N :=
  if big then (fresh, s.make fresh ⟨some w.1, k, w.2, .oversized⟩)
  else
    match nodeTake (s.pools w.1 k) w.2 with
    | (some n, l) => (n, s.setPool w.1 k l (.take w.1 k w.2))
    | (none, l) =>
        (fresh, (s.setPool w.1 k l (.take w.1 k w.2)).make fresh ⟨some w.1, k, w.2, .pooled⟩)

/-- `dealloc` of a pool of the worker's instance. -/
def reclaim (threshold : Nat) (s : State I N) (w : I × Nat) (n : N) : State I N :=
  match s.made n with
  | none => s
  | some m =>
      match m.kind with
      | .oversized => s
      | .pooled | .caller =>
          s.setPool w.1 m.which (nodeGive threshold (s.pools w.1 m.which) m.allocWk w.2 n)
            (.give w.1 m.which w.2 m.allocWk m.inst)

/-- The join word and the handle of a new thread or task. -/
def prepare (s : State I N) (c : N) : State I N :=
  ((s.setWord c .running).setPending c none).setHandle c true

/-- A thread that waits for a task is queued, and an awaiter, if it has parked. -/
def unpark (s : State I N) (j : N) (x : Place I N) : State I N :=
  if s.place j = .waiting then s.setPlace j x else s

/-- `finish_and_settle`, on a worker. Whoever has to be resumed is at `x` then. -/
def settle (threshold : Nat) (s : State I N) (w : I × Nat) (t : N) (x : Place I N) : State I N :=
  match s.word t with
  | .detached => s.reclaim threshold w t
  | .joiner j => ((s.setWord t .finished).setPending j (some t)).setPlace j (.queued w.1)
  | .awaiter j => (s.setWord t .finished).unpark j x
  | .running | .waker | .finished => s.setWord t .finished

end State

variable [DecidableEq I] [DecidableEq N] (threshold : Nat)

/-- When an action is enabled. -/
def guard (s : State I N) : Action I N → Prop
  | .start i n c | .startAsync i n c => s.num i = 0 ∧ 1 ≤ n ∧ s.Fresh c
  | .dispatch w t => w.2 < s.num w.1 ∧ s.cur w = none ∧ s.place t = .queued w.1
  | .poll w b t => w.2 < s.num w.1 ∧ s.On w b ∧ s.place t = .queued w.1
  | .spawn w t fresh _ | .fork w t fresh _ => s.RunsThread w t ∧ s.Fresh fresh
  | .spawnAsync w x fresh _ | .recurse w x fresh _ => s.Runs w x ∧ s.Fresh fresh
  | .runInline w t b =>
      s.RunsThread w t ∧ s.place b = .queued w.1 ∧ s.handle b = true ∧ s.word b = .running
  | .unfork w x n =>
      s.Runs w x ∧ s.place n = .queued w.1 ∧ s.handle n = true ∧ s.word n = .running
  | .freeBranch w x n => s.Runs w x ∧ s.branch n = true
  | .freeBranchOff n => s.branch n = true
  | .yield w t | .suspend w t => s.RunsThread w t
  | .pend w t | .requeue w t => s.Polls w t
  | .wake w x u => s.Runs w x ∧ s.place u = .waiting
  | .wakeOff u i => s.place u = .waiting ∧ s.inst u = some i
  | .join w t n => s.RunsThread w t ∧ s.handle n = true
  | .takeResult w t n => w.2 < s.num w.1 ∧ s.cur w = some t ∧ s.pending t = some n
  | .await w x n | .drop w x n => s.Runs w x ∧ s.handle n = true
  | .awaitOff n | .dropOff n => s.handle n = true
  | .exit w t _ => s.RunsThread w t ∧ s.made t ≠ none ∧ ∀ m ∈ s.made t, m.kind ≠ .caller
  | .complete w t b => s.Polls w t ∧ s.place t = .polled b
  | .recurseOff fresh _ _ => s.Fresh fresh
  | .dropFrame w x f => s.Runs w x ∧ s.frame f = true
  | .dropFrameOff f => s.frame f = true

/-- The state an action leads to. -/
def next (s : State I N) : Action I N → State I N
  | .start i n c =>
      ({ s with num := Function.update s.num i n }.make c ⟨some i, .task, 0, .caller⟩).setCur (i, 0)
        (some c)
  | .startAsync i n c =>
      -- It is allocated off the pool, and has no handle.
      (({ s with num := Function.update s.num i n }.make c
        ⟨some i, .async, 0, .oversized⟩).setWord c .detached).setPlace c (.queued i)
  | .dispatch w t => (s.setCur w (some t)).setPlace t .elsewhere
  | .poll _ b t => s.setPlace t (.polled b)
  | .spawn w t fresh big =>
      let (c, s') := s.obtain .task w fresh big
      ((s'.prepare c).setCur w (some c)).setPlace t (.queued w.1)
  | .fork w _ fresh big =>
      let (c, s') := s.obtain .task w fresh big
      (s'.prepare c).setPlace c (.queued w.1)
  | .runInline w _ b => ((s.setPlace b .elsewhere).setHandle b false).reclaim threshold w b
  | .spawnAsync w _ fresh big =>
      let (c, s') := s.obtain .async w fresh big
      (s'.prepare c).setPlace c (.queued w.1)
  | .unfork _ _ n => ((s.setPlace n .elsewhere).setHandle n false).setBranch n true
  | .freeBranch w _ n => (s.setBranch n false).reclaim threshold w n
  | .freeBranchOff n => s.setBranch n false
  | .yield w t => (s.setCur w none).setPlace t (.queued w.1)
  | .suspend w t => (s.setCur w none).setPlace t .waiting
  | .pend _ t => s.setPlace t .waiting
  | .requeue w t => s.setPlace t (.queued w.1)
  | .wake w _ u => s.setPlace u (.queued w.1)
  | .wakeOff u i => s.setPlace u (.queued i)
  | .join w t n =>
      let s' := s.setHandle n false
      if s.word n = .finished then s'.reclaim threshold w n
      else (s'.setWord n (.joiner t)).setCur w none
  | .takeResult w t n => (s.setPending t none).reclaim threshold w n
  | .await w x n =>
      if s.word n = .finished then (s.setHandle n false).reclaim threshold w n
      else if s.Polls w x then s.setWord n (.awaiter x)
      else s.setWord n .waker
  | .awaitOff n => if s.word n = .finished then s.setHandle n false else s.setWord n .waker
  | .drop w _ n =>
      let s' := s.setHandle n false
      if s.word n = .finished then s'.reclaim threshold w n else s'.setWord n .detached
  | .dropOff n =>
      let s' := s.setHandle n false
      if s.word n = .finished then s' else s'.setWord n .detached
  | .exit w t handoff =>
      match s.word t, handoff with
      | .joiner j, true =>
          ((s.setWord t .finished).setPending j (some t)).setCur w (some j)
      | _, _ => (s.setCur w none).settle threshold w t (.queued w.1)
  | .complete w t b =>
      -- An awaiter is polled next, on the same stack.
      (s.setPlace t .elsewhere).settle threshold w t (.polled b)
  | .recurse w _ fresh big =>
      let (f, s') := s.obtain .recursion w fresh big
      s'.setFrame f true
  | .recurseOff fresh big junk =>
      (s.make fresh ⟨none, .recursion, junk, if big then .oversized else .pooled⟩).setFrame fresh
        true
  | .dropFrame w _ f => (s.setFrame f false).reclaim threshold w f
  | .dropFrameOff f => s.setFrame f false

/-- No instance has been started. -/
def init (s : State I N) : Prop :=
  (∀ i, s.num i = 0) ∧ (∀ i k, s.pools i k = .empty) ∧ (∀ n, s.made n = none) ∧
    (∀ w, s.cur w = none) ∧ (∀ t, s.place t = .elsewhere) ∧ (∀ n, s.word n = .running) ∧
    (∀ n, s.handle n = false) ∧ (∀ n, s.branch n = false) ∧ (∀ n, s.frame n = false) ∧
    (∀ t, s.pending t = none) ∧ s.calls = []

/-- The instances of a system as a guarded transition system. -/
def system : System (State I N) (Action I N) where
  init := init
  guard := guard
  next := next threshold

instance decidableNoCaller (o : Option (Made I)) :
    Decidable (o ≠ none ∧ ∀ m ∈ o, m.kind ≠ .caller) :=
  match o with
  | none => isFalse fun h => h.1 rfl
  | some m =>
      decidable_of_iff (m.kind ≠ .caller)
        ⟨fun h => ⟨nofun, fun _ he => by cases he; exact h⟩, fun h => h.2 m rfl⟩

instance (s : State I N) (a : Action I N) : Decidable (guard s a) := by
  cases a <;> unfold guard <;> infer_instance

instance decidableSystemGuard (s : State I N) (a : Action I N) :
    Decidable ((system (I := I) (N := N) threshold).guard s a) :=
  inferInstanceAs (Decidable (guard s a))

/-- The pool of the worker's instance is where the memory came from, or no pool is asked. -/
def State.Own (s : State I N) (w : I × Nat) (n : N) : Prop :=
  s.inst n = some w.1 ∨ s.Oversized n

/-- Whatever is given up on a worker is given up on one of its own instance: the handle of what
    has finished, a branch, and a frame. So is every wake on a worker of its own instance, and so
    is a registration of who is going to be resumed. A frame is dropped off every worker only if
    it was made there. -/
def AtHome (s : State I N) : Action I N → Prop
  | .join w _ n | .wake w _ n => s.inst n = some w.1
  | .await w x n =>
      if s.word n = .finished then s.Own w n else s.Polls w x → s.inst n = some w.1
  | .drop w _ n => s.word n = .finished → s.Own w n
  | .freeBranch w _ n | .dropFrame w _ n => s.Own w n
  | .dropFrameOff f => s.inst f = none ∨ s.Oversized f
  | .start .. | .startAsync .. | .dispatch .. | .poll .. | .spawn .. | .fork .. | .runInline ..
  | .spawnAsync .. | .unfork .. | .freeBranchOff .. | .yield .. | .suspend .. | .pend ..
  | .requeue .. | .wakeOff .. | .takeResult .. | .awaitOff .. | .dropOff .. | .exit ..
  | .complete .. | .recurse .. | .recurseOff .. => True

instance (s : State I N) (w : I × Nat) (n : N) : Decidable (s.Own w n) :=
  inferInstanceAs (Decidable (_ ∨ _))

instance (s : State I N) (a : Action I N) : Decidable (AtHome s a) := by
  cases a <;> unfold AtHome <;> infer_instance

/-- Two of one instance. -/
def State.Same (s : State I N) (t n : N) : Prop :=
  ∃ i, s.inst t = some i ∧ s.inst n = some i

/-- What a place says of the instance of who is there. -/
def State.Fits (s : State I N) (t : N) : Place I N → Prop
  | .elsewhere | .waiting => True
  | .queued i => s.inst t = some i
  | .polled (.loop w) => s.inst t = some w.1
  | .polled (.thread u) => s.Same u t

/-- What a join word says of the instances: whoever is to be resumed is of the same one. -/
def State.Linked (s : State I N) (n : N) : Word N → Prop
  | .joiner t | .awaiter t => s.Same t n
  | .running | .waker | .finished | .detached => True

/-- Nodes are on lists of the pool they were made for, threads run on and are queued at workers
    of the instance their descriptor belongs to, tasks are queued and polled at such workers, and
    whoever is to be resumed belongs to the same one as whom it waits for. -/
structure Inv (s : State I N) : Prop where
  range : ∀ n, ∀ m ∈ s.made n, ∀ i, m.inst = some i → m.allocWk < s.num i
  pools : ∀ i k n, (s.pools i k).Holds n → s.inst n = some i
  cur : ∀ w t, s.cur w = some t → s.inst t = some w.1
  placed : ∀ t, s.Fits t (s.place t)
  linked : ∀ n, s.Linked n (s.word n)
  pending : ∀ t n, s.pending t = some n → s.Same t n
  calls : ∀ c ∈ s.calls, c.Right s.num

variable {s : State I N} {w : I × Nat} {t n : N}

omit [DecidableEq N] in
theorem Inv.setCur (h : Inv s) {x : Option N} (hx : ∀ t, x = some t → s.inst t = some w.1) :
    Inv (s.setCur w x) :=
  { h with
    cur := fun v => forall_update
      (P := fun (v : I × Nat) y => ∀ t, y = some t → s.inst t = some v.1) h.cur hx v }

omit [DecidableEq I] in
theorem Inv.setPlace (h : Inv s) {x : Place I N} (hx : s.Fits t x) : Inv (s.setPlace t x) :=
  { h with placed := forall_update (P := fun t x => s.Fits t x) h.placed hx }

omit [DecidableEq I] in
theorem Inv.setWord (h : Inv s) {x : Word N} (hx : s.Linked n x) : Inv (s.setWord n x) :=
  { h with linked := forall_update (P := fun n x => s.Linked n x) h.linked hx }

omit [DecidableEq I] in
theorem Inv.setPending (h : Inv s) {x : Option N} (hx : ∀ n, x = some n → s.Same t n) :
    Inv (s.setPending t x) :=
  { h with
    pending := fun u => forall_update (P := fun u (y : Option N) => ∀ n, y = some n → s.Same u n)
      h.pending hx u }

omit [DecidableEq I] in
theorem Inv.setHandle (h : Inv s) (n : N) (x : Bool) : Inv (s.setHandle n x) :=
  { h with }

omit [DecidableEq I] in
theorem Inv.setBranch (h : Inv s) (n : N) (x : Bool) : Inv (s.setBranch n x) :=
  { h with }

omit [DecidableEq I] in
theorem Inv.setFrame (h : Inv s) (n : N) (x : Bool) : Inv (s.setFrame n x) :=
  { h with }

omit [DecidableEq I] in
theorem Inv.prepare (h : Inv s) (c : N) : Inv (s.prepare c) :=
  ((h.setWord (x := .running) trivial).setPending (t := c) (x := none) nofun).setHandle c true

omit [DecidableEq I] in
/-- Memory that is allocated changes the instance of nothing there is. -/
theorem inst_make {fresh : N} {m : Made I} {i : I} (hf : s.Fresh fresh)
    (h : s.inst n = some i) : (s.make fresh m).inst n = some i := by
  have hne : n ≠ fresh := by
    intro he
    rw [State.inst, he, Option.isNone_iff_eq_none.mp hf] at h
    cases h
  change (Function.update s.made fresh (some m) n).bind Made.inst = some i
  rw [Function.update_of_ne hne]
  exact h

omit [DecidableEq I] in
/-- What says something of instances says it afterwards. -/
theorem Inv.makes (h : Inv s) {fresh : N} (m : Made I) (hf : s.Fresh fresh)
    (hm : ∀ i, m.inst = some i → m.allocWk < s.num i) : Inv (s.make fresh m) := by
  -- The new memory is nobody's yet, so what is said of an instance is about the old.
  have hsame : ∀ {t n}, s.Same t n → (s.make fresh m).Same t n := by
    rintro t n ⟨i, ht, hn⟩
    exact ⟨i, inst_make hf ht, inst_make hf hn⟩
  refine ⟨forall_update
      (P := fun _ (o : Option (Made I)) => ∀ m ∈ o, ∀ i, m.inst = some i → m.allocWk < s.num i)
      h.range fun m' he => ?_,
    fun i k n hn => inst_make hf (h.pools i k n hn), fun w t ht => inst_make hf (h.cur w t ht),
    fun t => ?_, fun n => ?_, fun t n ht => hsame (h.pending t n ht), h.calls⟩
  · cases he
    exact hm
  · have hold := h.placed t
    change (s.make fresh m).Fits t (s.place t)
    cases hp : s.place t with
    | elsewhere | waiting => trivial
    | queued i =>
        rw [hp] at hold
        exact inst_make hf hold
    | polled b =>
        rw [hp] at hold
        cases b with
        | loop w => exact inst_make hf hold
        | thread u => exact hsame hold
  · have hold := h.linked n
    change (s.make fresh m).Linked n (s.word n)
    cases hw : s.word n with
    | joiner t | awaiter t =>
        rw [hw] at hold
        exact hsame hold
    | running | waker | finished | detached => trivial

omit [DecidableEq N] in
/-- The lists of a pool change, and hold only nodes of the pool. -/
theorem Inv.setPool (h : Inv s) {i : I} {k : Which} {l : Pool.Lists N} {c : Call I}
    (hl : ∀ n, l.Holds n → s.inst n = some i) (hc : c.Right s.num) :
    Inv (s.setPool i k l c) :=
  { h with
    pools := by
      refine fun j => forall_update (f := s.pools)
        (P := fun j p => ∀ k n, (p k).Holds n → s.inst n = some j) h.pools ?_ j
      exact forall_update (P := fun _ l => ∀ n, Pool.Lists.Holds l n → s.inst n = some i)
        (fun k => h.pools i k) hl
    calls := by
      intro c hm
      rcases List.mem_cons.mp hm with rfl | hm
      · exact hc
      · exact h.calls c hm }

/-- What a pool hands out is a node of its own, and what there is stays where it belongs. -/
theorem inv_obtain (h : Inv s) {fresh : N} (k : Which) (big : Bool) (hw : w.2 < s.num w.1)
    (hf : s.Fresh fresh) :
    Inv (s.obtain k w fresh big).2 ∧
      (s.obtain k w fresh big).2.inst (s.obtain k w fresh big).1 = some w.1 ∧
      ∀ n i, s.inst n = some i → (s.obtain k w fresh big).2.inst n = some i := by
  have hnew : ∀ (s : State I N) (m : Made I), m.inst = some w.1 →
      (s.make fresh m).inst fresh = some w.1 := by
    intro s m hm
    simp [State.inst, State.make, hm]
  have hrange : ∀ i, some w.1 = some i → w.2 < s.num i := by
    rintro i he
    cases he
    exact hw
  cases big with
  | true => exact ⟨h.makes _ hf hrange, hnew _ _ rfl, fun n i hn => inst_make hf hn⟩
  | false =>
      have hl : ∀ {r l}, nodeTake (s.pools w.1 k) w.2 = (r, l) →
          ∀ n, l.Holds n → s.inst n = some w.1 :=
        fun ht n hn => h.pools w.1 k n (Pool.holds_nodeTake ht hn)
      unfold State.obtain
      rcases ht : nodeTake (s.pools w.1 k) w.2 with ⟨_ | n, l⟩
      · -- The lists were empty, and memory is allocated for this pool.
        have hpool := h.setPool (k := k) (c := .take w.1 k w.2) (hl ht) hw
        simp only [Bool.false_eq_true, if_false]
        exact ⟨hpool.makes _ hf hrange, hnew _ _ rfl,
          fun n i hn => inst_make (s := s.setPool w.1 k l (.take w.1 k w.2)) hf hn⟩
      · simp only [Bool.false_eq_true, if_false]
        exact ⟨h.setPool (hl ht) hw, h.pools w.1 k n (Pool.holds_of_nodeTake ht),
          fun _ _ hn => hn⟩

omit [DecidableEq N] in
/-- What is given up at home makes a call that is right, or none. -/
theorem inv_reclaim (h : Inv s) (hw : w.2 < s.num w.1) (hn : s.Own w n) :
    Inv (s.reclaim threshold w n) := by
  unfold State.reclaim
  -- What was never made gives nothing back.
  cases hm : s.made n with
  | none => exact h
  | some m =>
      cases hk : m.kind with
      | oversized => simpa only [hk] using h
      | pooled | caller =>
          have hinst : s.inst n = some w.1 := by
            rcases hn with hn | ⟨m', hm', hbig⟩
            · exact hn
            · rw [hm] at hm'
              cases hm'
              rw [hk] at hbig
              cases hbig
          have hi : m.inst = some w.1 := by
            rwa [State.inst, hm] at hinst
          have hrange : m.allocWk < s.num w.1 := h.range n m hm w.1 hi
          simp only [hk]
          refine h.setPool (fun x hx => ?_) ⟨hw, hrange, hi⟩
          rcases Pool.holds_nodeGive hx with rfl | hx
          · exact hinst
          · exact h.pools w.1 m.which x hx

omit [DecidableEq I] [DecidableEq N] in
/-- The code that runs on a worker belongs to its instance. -/
theorem Inv.runs (h : Inv s) (hr : s.Runs w t) : s.inst t = some w.1 := by
  rcases hr with hr | ⟨-, hr⟩
  · exact h.cur w t hr.2.1
  · have hfits := h.placed t
    -- A task that is polled is of the instance of the loop, or of the thread, that polls it.
    cases hp : s.place t with
    | elsewhere | queued i | waiting =>
        rw [hp] at hr
        exact hr.elim
    | polled b =>
        rw [hp] at hr hfits
        cases b with
        | loop v =>
            cases hr.1
            exact hfits
        | thread u =>
            rcases hfits with ⟨i, hu, ht⟩
            rw [h.cur w u hr.1] at hu
            cases hu
            exact ht

omit [DecidableEq I] [DecidableEq N] in
theorem State.Runs.lt (hr : s.Runs w t) : w.2 < s.num w.1 :=
  hr.elim (fun h => h.1) fun h => h.1

omit [DecidableEq I] [DecidableEq N] in
/-- A poll starts at home, on the loop or on the stack of a thread. -/
theorem Inv.fits_base (h : Inv s) {b : Base I N} (hb : s.On w b) (ht : s.inst t = some w.1) :
    s.Fits t (.polled b) := by
  cases b with
  | loop v =>
      cases hb.1
      exact ht
  | thread u => exact ⟨w.1, h.cur w u hb.1, ht⟩

omit [DecidableEq N] in
/-- An instance that is started was not in use. -/
theorem lt_update {num : I → Nat} {i j : I} {k n : Nat} (h0 : num i = 0) (h : k < num j) :
    k < Function.update num i n j := by
  have hne : j ≠ i := by
    intro he
    rw [he, h0] at h
    cases h
  rwa [Function.update_of_ne hne]

omit [DecidableEq N] in
/-- More workers are there, and all indices are still in range. -/
theorem Inv.starts (h : Inv s) {i : I} {k : Nat} (h0 : s.num i = 0) :
    Inv { s with num := Function.update s.num i k } :=
  { h with
    range := fun x m hm j hj => lt_update h0 (h.range x m hm j hj)
    calls := by
      intro call hm
      have hr := h.calls call hm
      cases call with
      | take pool which curWk => exact lt_update h0 hr
      | give pool which curWk allocWk owner =>
          exact ⟨lt_update h0 hr.1, lt_update h0 hr.2.1, hr.2.2⟩ }

theorem inv_start (h : Inv s) {i : I} {k : Nat} {c : N} (hg : guard s (.start i k c)) :
    Inv (next threshold s (.start i k c)) ∧ Inv (next threshold s (.startAsync i k c)) := by
  rcases hg with ⟨h0, hk, hf⟩
  have hzero : ∀ j, some i = some j → 0 < Function.update s.num i k j := by
    intro j he
    cases he
    rw [Function.update_self]
    omega
  have hinst : ∀ m : Made I, m.inst = some i →
      ({ s with num := Function.update s.num i k }.make c m).inst c = some i := by
    intro m hm
    simp [State.inst, State.make, hm]
  constructor
  · refine ((h.starts h0).makes ⟨some i, .task, 0, .caller⟩ hf hzero).setCur fun t he => ?_
    cases he
    exact hinst _ rfl
  · have hmade := (h.starts h0).makes ⟨some i, .async, 0, .oversized⟩ hf hzero
    exact (hmade.setWord (x := .detached) trivial).setPlace (x := .queued i) (hinst _ rfl)

/-- A thread or a task is made: it is queued, or a thread starts in its parent's place. -/
theorem inv_spawned (h : Inv s) {fresh : N} (big : Bool) (hr : s.Runs w t) (hf : s.Fresh fresh) :
    Inv (next threshold s (.spawn w t fresh big)) ∧
      Inv (next threshold s (.fork w t fresh big)) ∧
      Inv (next threshold s (.spawnAsync w t fresh big)) := by
  rcases inv_obtain h .task big hr.lt hf with ⟨ha, hc, hkeep⟩
  rcases inv_obtain h .async big hr.lt hf with ⟨ha', hc', -⟩
  refine ⟨?_, (ha.prepare _).setPlace hc, (ha'.prepare _).setPlace hc'⟩
  refine ((ha.prepare _).setCur fun u he => ?_).setPlace (hkeep t w.1 (h.runs hr))
  cases he
  exact hc

/-- A joiner registers, or takes the result at once. -/
theorem inv_join (h : Inv s) (hr : s.RunsThread w t) (hn : s.inst n = some w.1) :
    Inv (next threshold s (.join w t n)) := by
  unfold next
  dsimp only
  split
  · exact inv_reclaim threshold (h.setHandle n false) hr.1 (.inl hn)
  · exact ((h.setHandle n false).setWord (x := .joiner t) ⟨w.1, h.cur w t hr.2.1, hn⟩).setCur nofun

/-- So does whoever awaits the handle: the task that is polled, or a foreign waker. -/
theorem inv_await (h : Inv s) (hr : s.Runs w t) (hc : AtHome s (.await w t n)) :
    Inv (next threshold s (.await w t n)) := by
  change if s.word n = .finished then s.Own w n else s.Polls w t → s.inst n = some w.1 at hc
  unfold next
  dsimp only
  split
  · next hw =>
      rw [if_pos hw] at hc
      exact inv_reclaim threshold (h.setHandle n false) hr.lt hc
  · next hw =>
      rw [if_neg hw] at hc
      split
      · next hp => exact h.setWord (x := .awaiter t) ⟨w.1, h.runs hr, hc hp⟩
      · exact h.setWord trivial

/-- A handle is dropped: what has finished is given up, and else the task is left to itself. -/
theorem inv_drop (h : Inv s) (hr : s.Runs w t) (hc : AtHome s (.drop w t n)) :
    Inv (next threshold s (.drop w t n)) := by
  unfold next
  dsimp only
  split
  · next hw => exact inv_reclaim threshold (h.setHandle n false) hr.lt (hc hw)
  · exact (h.setHandle n false).setWord trivial

/-- What ends is settled where its descriptor belongs, and whoever has waited for it is of the
    same instance. -/
theorem inv_settle (h : Inv s) (hw : w.2 < s.num w.1) (ht : s.inst t = some w.1)
    {x : Place I N} (hx : ∀ j, s.inst j = some w.1 → s.Fits j x) :
    Inv (s.settle threshold w t x) := by
  have hlinked := h.linked t
  -- A joiner or an awaiter is of the instance of the worker.
  have hsame : ∀ {j}, s.Same j t → s.inst j = some w.1 := by
    rintro j ⟨i, hj, hi⟩
    rw [ht] at hi
    cases hi
    exact hj
  unfold State.settle
  cases hword : s.word t with
  | detached => exact inv_reclaim threshold h hw (.inl ht)
  | joiner j =>
      rw [hword] at hlinked
      refine ((h.setWord (x := .finished) trivial).setPending fun n he => ?_).setPlace
        (hsame hlinked)
      cases he
      exact hlinked
  | awaiter j =>
      rw [hword] at hlinked
      dsimp only
      unfold State.unpark
      split
      · exact (h.setWord (x := .finished) trivial).setPlace (hx j (hsame hlinked))
      · exact h.setWord trivial
  | running | waker | finished => exact h.setWord trivial

/-- A thread exits where its descriptor belongs, and so does its joiner go on there. -/
theorem inv_exit (h : Inv s) (handoff : Bool) (hr : s.RunsThread w t) :
    Inv (next threshold s (.exit w t handoff)) := by
  have ht := h.cur w t hr.2.1
  have hsettle : Inv ((s.setCur w none).settle threshold w t (.queued w.1)) :=
    inv_settle threshold (h.setCur (x := none) nofun) hr.1 ht fun _ hj => hj
  unfold next
  dsimp only
  -- A joiner that waits goes on here; without one the worker looks for work.
  split
  · next j hword =>
      have hlinked := h.linked t
      rw [hword] at hlinked
      rcases hlinked with ⟨i, hj, hi⟩
      rw [ht] at hi
      cases hi
      refine ((h.setWord (x := .finished) trivial).setPending fun n he => ?_).setCur fun u he => ?_
      · cases he
        exact ⟨w.1, hj, ht⟩
      · cases he
        exact hj
  · exact hsettle

/-- So does a task end where it belongs, and who awaits it is polled there. -/
theorem inv_complete (h : Inv s) {b : Base I N} (hr : s.Polls w t) (hb : s.place t = .polled b) :
    Inv (next threshold s (.complete w t b)) := by
  have hon : s.On w b := by
    have hrest := hr.2
    rwa [hb] at hrest
  exact inv_settle threshold (h.setPlace (x := .elsewhere) trivial) hr.1 (h.runs (.inr hr))
    fun _ hj => h.fits_base hon hj

theorem inv_next (h : Inv s) {a : Action I N} (hg : guard s a) (hc : AtHome s a) :
    Inv (next threshold s a) := by
  -- Memory changes hands in the steps that have a lemma; the rest moves threads and tasks.
  cases a with
  | start i k c => exact (inv_start threshold h hg).1
  | startAsync i k c => exact (inv_start threshold h hg).2
  | dispatch w t =>
      have hfits := h.placed t
      rw [hg.2.2] at hfits
      refine (h.setCur fun u he => ?_).setPlace trivial
      cases he
      exact hfits
  | poll w b t =>
      have hfits := h.placed t
      rw [hg.2.2] at hfits
      exact h.setPlace (h.fits_base hg.2.1 hfits)
  | spawn w t fresh big => exact (inv_spawned threshold h big (.inl hg.1) hg.2).1
  | fork w t fresh big => exact (inv_spawned threshold h big (.inl hg.1) hg.2).2.1
  | spawnAsync w x fresh big => exact (inv_spawned threshold h big hg.1 hg.2).2.2
  | runInline w t b =>
      have hfits := h.placed b
      rw [hg.2.1] at hfits
      exact inv_reclaim threshold ((h.setPlace (x := .elsewhere) trivial).setHandle b false)
        hg.1.1 (.inl hfits)
  | unfork w x n =>
      exact ((h.setPlace (x := .elsewhere) trivial).setHandle n false).setBranch n true
  | freeBranch w x n => exact inv_reclaim threshold (h.setBranch n false) hg.1.lt hc
  | freeBranchOff n => exact h.setBranch n false
  | yield w t => exact (h.setCur (x := none) nofun).setPlace (h.cur w t hg.2.1)
  | suspend w t => exact (h.setCur (x := none) nofun).setPlace trivial
  | pend w t => exact h.setPlace trivial
  | requeue w t => exact h.setPlace (h.runs (.inr hg))
  | wake w x u => exact h.setPlace hc
  | wakeOff u i => exact h.setPlace hg.2
  | join w t n => exact inv_join threshold h hg.1 hc
  | takeResult w t n =>
      rcases h.pending t n hg.2.2 with ⟨i, ht, hn⟩
      have hi : s.inst n = some w.1 := by
        rw [hn, ← ht]
        exact h.cur w t hg.2.1
      exact inv_reclaim threshold (h.setPending (x := none) nofun) hg.1 (.inl hi)
  | await w x n => exact inv_await threshold h hg.1 hc
  | awaitOff n =>
      unfold next
      dsimp only
      split
      · exact h.setHandle n false
      · exact h.setWord trivial
  | drop w x n => exact inv_drop threshold h hg.1 hc
  | dropOff n =>
      unfold next
      dsimp only
      split
      · exact h.setHandle n false
      · exact (h.setHandle n false).setWord trivial
  | exit w t handoff => exact inv_exit threshold h handoff hg.1
  | complete w t b => exact inv_complete threshold h hg.1 hg.2
  | recurse w x fresh big =>
      exact (inv_obtain h .recursion big hg.1.lt hg.2).1.setFrame _ true
  | recurseOff fresh big junk =>
      have hmade := h.makes ⟨none, .recursion, junk, if big then .oversized else .pooled⟩ hg nofun
      exact hmade.setFrame fresh true
  | dropFrame w x f => exact inv_reclaim threshold (h.setFrame f false) hg.1.lt hc
  | dropFrameOff f => exact h.setFrame f false

omit [DecidableEq I] [DecidableEq N] in
theorem inv_init (hi : init s) : Inv s := by
  rcases hi with ⟨-, hpools, hmade, hcur, hplace, hword, -, -, -, hpending, hcalls⟩
  refine ⟨fun n m hm => ?_, fun i k n hn => ?_, fun w t ht => ?_, fun t => ?_, fun n => ?_,
    fun t n ht => ?_, fun c hm => ?_⟩
  · rw [hmade n] at hm
    cases hm
  · rw [hpools i k] at hn
    exact absurd hn (Pool.not_holds_empty n)
  · rw [hcur w] at ht
    cases ht
  · rw [hplace t]
    trivial
  · rw [hword n]
    trivial
  · rw [hpending t] at ht
    cases ht
  · rw [hcalls] at hm
    cases hm

/-- In every run in which handles, threads, tasks and frames stay at home, the indices that
    `node_take` and `node_give` use unchecked are in range, and every node goes back to the pool
    that allocated it. -/
theorem calls_right {s : State I N} {as : List (Action I N)} (hi : init s)
    (hl : (system threshold).Legal s as) (ha : (system threshold).Along AtHome s as) :
    (system threshold).Throughout (fun s => ∀ c ∈ s.calls, c.Right s.num) s as :=
  (system threshold).throughout_of_along (I := Inv) (fun _ h => h.calls)
    (fun _ _ h hg hc => inv_next threshold h hg hc) as s (inv_init hi) hl ha

/-- No instances, of two that may be started. -/
def nothing : State Bool Nat where
  num _ := 0
  pools _ _ := .empty
  made _ := none
  cur _ := none
  place _ := .elsewhere
  word _ := .running
  handle _ := false
  branch _ := false
  frame _ := false
  pending _ := none
  calls := []

theorem init_nothing : init nothing :=
  ⟨fun _ => rfl, fun _ _ => rfl, fun _ => rfl, fun _ => rfl, fun _ => rfl, fun _ => rfl,
    fun _ => rfl, fun _ => rfl, fun _ => rfl, fun _ => rfl, rfl⟩

/-- Of the four workers of an instance the last one makes a thread, which exits, an async task,
    which another worker polls to the end, a branch that nobody steals, and a frame. -/
def makeRun : List (Action Bool Nat) :=
  [.start true 4 0, .spawn (true, 0) 0 2 false, .dispatch (true, 3) 0, .spawn (true, 3) 0 3 false,
    .exit (true, 3) 3 false, .dispatch (true, 3) 0, .spawnAsync (true, 3) 0 4 false,
    .poll (true, 1) (.loop (true, 1)) 4, .complete (true, 1) 4 (.loop (true, 1)),
    .spawnAsync (true, 3) 0 5 false, .unfork (true, 3) 0 5, .recurse (true, 3) 0 6 false]

/-- Another worker of the instance drops the handles, the branch and the frame. -/
def homeRun : List (Action Bool Nat) :=
  makeRun ++ [Action.drop (true, 0) 2 3, .drop (true, 0) 2 4, .freeBranch (true, 0) 2 5,
    .dropFrame (true, 0) 2 6]

theorem calls_right_dropped :
    (system 16).Throughout (fun s => ∀ c ∈ s.calls, c.Right s.num) nothing homeRun ∧
      ((system 16).run nothing homeRun).calls.take 4 =
        [.give true .recursion 0 3 (some true), .give true .async 0 3 (some true),
          .give true .async 0 3 (some true), .give true .task 0 3 (some true)] :=
  ⟨calls_right 16 init_nothing (by decide +kernel) (by decide +kernel), by decide +kernel⟩

/-- The only worker of another instance drops them. -/
def foreignRun : List (Action Bool Nat) :=
  makeRun ++ [Action.start false 1 1, .drop (false, 0) 1 3, .freeBranch (false, 0) 1 5,
    .dropFrame (false, 0) 1 6]

/-- The pools of one worker are asked for the lists of its fourth worker, for nodes that are not
    their own. -/
theorem foreign_drop :
    (system 16).Legal nothing foreignRun ∧
      ((system 16).run nothing foreignRun).calls.take 3 =
        [.give false .recursion 0 3 (some true), .give false .async 0 3 (some true),
          .give false .task 0 3 (some true)] ∧
      ¬ ∀ (s : State Bool Nat) (as : List (Action Bool Nat)), init s → (system 16).Legal s as →
        (system 16).Throughout (fun s => ∀ c ∈ s.calls, c.Right s.num) s as := by
  refine ⟨by decide +kernel, by decide +kernel, fun h => ?_⟩
  have hend := System.throughout_run _ _ _ (h nothing foreignRun init_nothing (by decide +kernel))
  exact absurd hend (by decide +kernel)

end Instances

end Cmpth

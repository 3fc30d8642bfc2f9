import Mathlib.Logic.Function.Basic
import Cmpth.Core.System

/-!
# Context Switches

Workers that switch between ULTs, and the tokens that say who may switch to
whom.

Every context switch runs a callback on the destination's stack: the shim has
saved the context of the task that was left, has made the destination the
worker's `cur_task`, and the callback then puts the token of the task that was
left where somebody will find it. Only after that does the destination go on.
The callbacks of a stackful system store into a wait slot or a queue, claim a
join word or a waker word, write the link of a mutex node, or drop the guard a
condvar was given. The last may have to wait for a link that is not yet
written, and then it calls `yield_now`: a context switch of its own, made in
the name of the destination.

Callbacks also call code of the user's. `wait_with` and `wait_with_cond` run
their closures there. `finish_and_settle`, in the callback of an exit, calls the
waker it finds in the join word, and if the `JoinHandle` was dropped after the
task had looked for that, it drops the result. A `join` that replaces a waker
drops the waker. All of this is user code that may do what a ULT may do, and
does it in the name of the destination.

A saved context is therefore a point in the code of a task, or a point in a
callback together with the worker the callback was handed and the context it
was going to land on. That is what makes the difference between resuming a task
and resuming a callback on top of it visible.

Tokens are in queues, which are lists, and in cells, which hold one: whatever a
cell held before is lost when a token is stored into it. Every worker has a run
queue; there may be others, such as the external queue. A dispatch policy
returns the token of any queue it likes, or none. What an async task does is
only where its token goes.

## Main definitions

* `Op`: A switch that is under way, with the callback that belongs to it.
* `Ctx`: A saved context.
* `JoinState`: What a join word says.
* `Pc`: What the code on a worker is doing.
* `Spot`: Where a token is.
* `State`, `Action`: The workers; one atomic action.
* `system`: The workers as a guarded transition system.
-/

namespace Cmpth

namespace Worker

/-- A descriptor: the scheduler loop of a worker, a ULT or an async task. -/
inductive Desc (W T A : Type*) where
  | root (w : W)
  | ult (t : T)
  | async (a : A)
  deriving DecidableEq, Repr

/-- `is_root`. -/
def Desc.isRoot {W T A : Type*} : Desc W T A → Bool
  | .root _ => true
  | .ult _ | .async _ => false

/-- The descriptor of a task with a stack of its own, and no loop of a worker. -/
def Desc.isUlt {W T A : Type*} : Desc W T A → Bool
  | .ult _ => true
  | .root _ | .async _ => false

/-- `is_poll_fn_dispatch`. -/
def Desc.isPollFn {W T A : Type*} : Desc W T A → Bool
  | .async _ => true
  | .root _ | .ult _ => false

/-- Where a suspended task's token goes. -/
inductive Dest (T X : Type*) where
  /-- `push` or `defer`. -/
  | queue
  | slot (x : X)
  /-- `try_register_joiner`. -/
  | join (t : T)
  /-- `decide_park`. -/
  | park
  /-- `set_root_cont`. -/
  | root
  deriving DecidableEq, Repr

/-- What the callback does after that. -/
inductive Tail (X M : Type*) where
  | nothing
  /-- `McsMutex::lock`: store the node into its predecessor's `next`. -/
  | link (x : X)
  /-- `McsCondvar::wait`: drop the guard. -/
  | release (m : M)
  /-- `wait_with`: call the closure. -/
  | call
  deriving DecidableEq, Repr

/-- The branches of `exit_with_result`, by what the callback does. -/
inductive Exit where
  /-- `commit_finished`: the joiner is switched to. -/
  | handoff
  /-- `free_task`: the handle is gone, and the result with it. -/
  | abandoned
  /-- `finish_and_settle`. -/
  | settle
  deriving DecidableEq, Repr

/-- The kinds of switches: `suspend_to_cont`, `cond_suspend_to_cont` and
    `exit_to_cont`. -/
inductive Op (T X M : Type*) where
  | suspend (d : Dest T X) (k : Tail X M)
  | cond (d : Dest T X)
  | exit (e : Exit)
  deriving DecidableEq, Repr

/-- What a join word says. The token of a sync joiner is in `Spot.join`; an async
    joiner of the same system is woken like any async task. -/
inductive JoinState where
  | running
  /-- `AsyncWaker`. -/
  | waker
  | detached
  | finished
  deriving DecidableEq, Repr

/-- A saved context, as the point it resumes at. -/
inductive Ctx (W T A X M : Type*) where
  /-- The start of a parallel branch that nobody has begun. -/
  | entry
  | body
  /-- The wait for the successor's link, in a guard's drop; then `back`. -/
  | unlocking (m : M) (back : Ctx W T A X M)
  /-- The same in a condvar's callback that was handed `wk` and that lands on
      `onto`. -/
  | callback (m : M) (wk : W) (onto : Ctx W T A X M)
  /-- User code that a callback has called: a closure, a destructor, a waker. -/
  | called (wk : W) (onto : Ctx W T A X M)
  /-- The same in a conditional callback, which has left `u` for `n`. -/
  | asked (u n : Desc W T A) (d : Dest T X) (wk : W) (c onto : Ctx W T A X M)
  deriving DecidableEq, Repr

/-- Where a resumed context goes on. -/
def Ctx.resumed {W T A X M : Type*} : Ctx W T A X M → Ctx W T A X M
  | .entry => .body
  | c => c

/-- The context is that of a callback. -/
def Ctx.inCallback {W T A X M : Type*} : Ctx W T A X M → Bool
  | .callback _ _ _ | .called _ _ | .asked _ _ _ _ _ _ => true
  | .unlocking _ back => back.inCallback
  | .entry | .body => false

/-- User code runs there. -/
def Ctx.user {W T A X M : Type*} : Ctx W T A X M → Bool
  | .body | .called _ _ | .asked _ _ _ _ _ _ => true
  | .entry | .unlocking _ _ | .callback _ _ _ => false

/-- What the code on a worker is doing. A callback knows the worker it was
    handed and the context it lands on; a conditional one also the task that
    was left and the one that is now current. -/
inductive Pc (W T A X M : Type*) where
  | run (c : Ctx W T A X M)
  /-- `u`, at the point `c`, is about to ask for the next task. -/
  | calling (u : Desc W T A) (op : Op T X M) (c : Ctx W T A X M)
  /-- The policy has picked an async task. -/
  | bounced (u : Desc W T A) (op : Op T X M) (c : Ctx W T A X M)
  /-- The next task is in hand. -/
  | picked (u : Desc W T A) (op : Op T X M) (c : Ctx W T A X M)
  | publish (u : Desc W T A) (d : Dest T X) (k : Tail X M) (wk : W) (onto : Ctx W T A X M)
  | linking (x : X) (wk : W) (onto : Ctx W T A X M)
  | releasing (m : M) (wk : W) (onto : Ctx W T A X M)
  | exiting (e : Exit) (t : T) (wk : W) (onto : Ctx W T A X M)
  | landing (wk : W) (onto : Ctx W T A X M)
  | deciding (u n : Desc W T A) (d : Dest T X) (c onto : Ctx W T A X M)
  /-- The token is out, and the user's code has answered. -/
  | published (u n : Desc W T A) (d : Dest T X) (wk : W) (c onto : Ctx W T A X M)
  /-- Back on `u`, with the other task to put back. -/
  | cancelled (u n : Desc W T A) (wk : W) (c : Ctx W T A X M)
  /-- `parallel_call` has popped a token. -/
  | judging (t : T) (d : Desc W T A) (c : Ctx W T A X M)
  deriving DecidableEq, Repr

/-- The context of a switch that has not left the task yet. -/
def Pc.leaving {W T A X M : Type*} : Pc W T A X M → Option (Ctx W T A X M)
  | .calling _ _ c | .bounced _ _ c | .picked _ _ c => some c
  | _ => none

/-- A switch is under way inside a callback. -/
def Pc.nested {W T A X M : Type*} (p : Pc W T A X M) : Bool :=
  p.leaving.any Ctx.inCallback

/-- The code runs, outside of any operation that switches. -/
def Pc.between {W T A X M : Type*} : Pc W T A X M → Bool
  | .run c => !c.inCallback
  | _ => false

/-- Code of the user's or of a scheduler loop runs, in a callback or not. -/
def Pc.isRun {W T A X M : Type*} : Pc W T A X M → Bool
  | .run _ => true
  | _ => false

/-- Where a token is. -/
inductive Spot (W T X Q : Type*) where
  | queue (q : Q)
  | slot (x : X)
  /-- The joiner in a join word. -/
  | join (t : T)
  /-- Its own waker word says `PARKED`. -/
  | parked
  | cur (w : W)
  | rootCont (w : W)
  /-- Taken by a worker, to be switched to or put back. -/
  | hand (w : W)
  /-- Saved by a shim, for its callback. -/
  | prev (w : W)
  /-- Being polled. -/
  | polling
  /-- An async task that waits for a wake. -/
  | asleep
  deriving DecidableEq, Repr

/-- The spots that hold one token, so that a store loses what was there. -/
def Spot.cell {W T X Q : Type*} : Spot W T X Q → Bool
  | .slot _ | .join _ | .cur _ | .rootCont _ | .hand _ | .prev _ => true
  | .queue _ | .parked | .polling | .asleep => false

/-- The workers, the tokens, and what tasks have left in shared memory. -/
structure State (W T A X M Q : Type*) where
  tokens : Spot W T X Q → List (Desc W T A)
  /-- Allocated and not yet finished. -/
  live : Desc W T A → Bool
  ctx : Desc W T A → Option (Ctx W T A X M)
  pc : W → Pc W T A X M
  /-- The worker the code running here was last handed. -/
  handed : W → W
  joinState : T → JoinState
  /-- Somebody has the `JoinHandle`. -/
  handle : T → Bool
  /-- The worker whose task is about to wait in the slot. -/
  claimed : X → Option W
  /-- The nodes of a mutex, in the order of the tail swaps. -/
  order : M → List X
  queued : X → Bool
  /-- The node is its predecessor's `next`. -/
  linked : X → Bool
  /-- The task that has the guard. -/
  owner : M → Option (Desc W T A)

/-- One atomic action. What user code does says who does it, the worker's current
    task, and at which point. -/
inductive Action (W T A X M Q : Type*) where
  /-- `run_on`, from the loop of `v`. -/
  | runOn (w v : W) (q : Q) (d : Desc W T A)
  /-- `suspend_to_sched`: `yield_now`, `wait_with`, `McsCondvar::wait`. -/
  | suspendToSched (w : W) (u : Desc W T A) (d : Dest T X) (k : Tail X M) (c : Ctx W T A X M)
  /-- `cond_suspend_to_sched`: `join`, `wait_with_cond`, a park of `block_on`. -/
  | condSuspendToSched (w : W) (u : Desc W T A) (d : Dest T X) (c : Ctx W T A X M)
  /-- `exit_to_sched`, while the handle is there. -/
  | exitToSched (w : W) (t : T)
  /-- `exit_to_sched`, once the handle is dropped. -/
  | exitAbandoned (w : W) (t : T)
  /-- `exit_to_cont`, to the joiner. -/
  | exitToCont (w : W) (t : T) (n : Desc W T A)
  | enter (w : W) (u : Desc W T A) (x : X) (n : Desc W T A) (c : Ctx W T A X M)
  | swap (w : W) (u : Desc W T A) (x y : X) (n : Desc W T A) (c : Ctx W T A X M)
  /-- `spawn`, up to the callback of `suspend_to_new`. -/
  | spawn (w : W) (u : Desc W T A) (t' : T) (c : Ctx W T A X M)
  /-- The tail swap of `McsMutex::lock`, with nobody before. -/
  | lock (w : W) (u : Desc W T A) (m : M) (x : X) (c : Ctx W T A X M)
  /-- The tail swap with a predecessor to wait for. -/
  | lockWait (w : W) (u : Desc W T A) (m : M) (x : X) (c : Ctx W T A X M)
  /-- The compare and exchange of a guard's drop. -/
  | dropGuard (w : W) (u : Desc W T A) (m : M) (c : Ctx W T A X M)
  /-- The call of `yield_now` in a guard's drop. -/
  | spinYield (w : W) (u : Desc W T A) (m : M) (c : Ctx W T A X M)
  /-- `switch_next` returns a token. -/
  | switchNext (w : W) (u : Desc W T A) (op : Op T X M) (c : Ctx W T A X M) (q : Q)
      (d : Desc W T A)
  /-- It returns none. -/
  | takeRootCont (w : W) (u : Desc W T A) (op : Op T X M) (c : Ctx W T A X M) (n : Desc W T A)
  /-- It has returned an async task. -/
  | pushBack (w : W) (u : Desc W T A) (op : Op T X M) (c : Ctx W T A X M) (a n : Desc W T A)
  | suspendShim (w : W) (u n : Desc W T A) (d : Dest T X) (k : Tail X M)
      (c onto : Ctx W T A X M)
  | condSuspendShim (w : W) (u n : Desc W T A) (d : Dest T X) (c onto : Ctx W T A X M)
  | exitShim (w : W) (t : T) (n : Desc W T A) (e : Exit) (c onto : Ctx W T A X M)
  /-- The callback stores the token. -/
  | publish (w : W) (u : Desc W T A) (d : Dest T X) (k : Tail X M) (wk : W)
      (onto : Ctx W T A X M)
  | link (w : W) (x : X) (wk : W) (onto : Ctx W T A X M)
  /-- The compare and exchange of a guard's drop, in a callback. -/
  | release (w : W) (m : M) (wk : W) (onto : Ctx W T A X M)
  /-- The drop finds its successor and notifies it. -/
  | handOver (w : W) (m : M) (c : Ctx W T A X M) (x y : X) (rest : List X) (n : Desc W T A)
  /-- The user's code is through, and the callback with it. -/
  | returned (w wk : W) (onto : Ctx W T A X M)
  | land (w wk : W) (onto : Ctx W T A X M)
  /-- A conditional callback stores the token. -/
  | register (w : W) (u n : Desc W T A) (d : Dest T X) (c onto : Ctx W T A X M)
  /-- The user's code in it is through. -/
  | answer (w : W) (u n : Desc W T A) (d : Dest T X) (wk : W) (c onto : Ctx W T A X M)
  /-- The switch is final: `e` is the callback's worker's current task. -/
  | commit (w : W) (e u n : Desc W T A) (d : Dest T X) (wk : W) (c onto : Ctx W T A X M)
  /-- `wait_with_cond` takes it back, and cancels. -/
  | retract (w : W) (e u n : Desc W T A) (x : X) (wk : W) (c onto : Ctx W T A X M)
  /-- A join word or a waker word refuses it. -/
  | cancel (w : W) (u n : Desc W T A) (d : Dest T X) (c onto : Ctx W T A X M)
  | putBack (w : W) (u n : Desc W T A) (wk : W) (c : Ctx W T A X M)
  | commitFinished (w : W) (t : T) (wk : W) (onto : Ctx W T A X M)
  | freeTask (w : W) (t : T) (wk : W) (onto : Ctx W T A X M)
  /-- `finish_and_settle`, up to the user code it calls. -/
  | settle (w : W) (t : T) (wk : W) (onto : Ctx W T A X M)
  /-- `try_abandon`: the drop of a `JoinHandle` whose task is not done, by anybody. -/
  | abandon (t : T)
  /-- A poll of a `JoinHandle` leaves a waker, by anybody. -/
  | registerWaker (t : T)
  | notify (w : W) (x : X) (n : Desc W T A)
  /-- A wake of a parked ULT, by anybody. -/
  | wake (d : Desc W T A) (q : Q)
  /-- `parallel_call`, up to the push. -/
  | build (w : W) (u : Desc W T A) (t' : T) (c : Ctx W T A X M)
  /-- And its pop. -/
  | tryPop (w : W) (u : Desc W T A) (t' : T) (d : Desc W T A) (c : Ctx W T A X M)
  /-- The branch has not begun: its descriptor is freed. -/
  | discard (w : W) (t' : T) (c : Ctx W T A X M)
  /-- Anything else is pushed again. -/
  | rePush (w : W) (t' : T) (d : Desc W T A) (c : Ctx W T A X M)
  | spawnAsync (w : W) (a : A)
  | poll (w : W) (q : Q) (a : A)
  | pollReady (a : A)
  | pollPending (a : A)
  /-- A wake of an async task, by anybody; also one that has come meanwhile. -/
  | wakeAsync (a : A) (x : Spot W T X Q) (q : Q)

section

variable {W T A X M Q : Type*}
variable [DecidableEq W] [DecidableEq T] [DecidableEq A] [DecidableEq X] [DecidableEq M]
  [DecidableEq Q]

/-- A token is taken from one spot and stored into another. -/
def moved (f : Spot W T X Q → List (Desc W T A)) (d : Desc W T A) (x y : Spot W T X Q) :
    Spot W T X Q → List (Desc W T A) :=
  let g := Function.update f x ((f x).erase d)
  Function.update g y (if y.cell then [d] else d :: g y)

/-- A new token. -/
def added (f : Spot W T X Q → List (Desc W T A)) (d : Desc W T A) (y : Spot W T X Q) :
    Spot W T X Q → List (Desc W T A) :=
  Function.update f y (if y.cell then [d] else d :: f y)

/-- A token that is thrown away. -/
def removed (f : Spot W T X Q → List (Desc W T A)) (d : Desc W T A) (x : Spot W T X Q) :
    Spot W T X Q → List (Desc W T A) :=
  Function.update f x ((f x).erase d)

namespace State

/-- The worker goes on. -/
def goto (s : State W T A X M Q) (w : W) (p : Pc W T A X M) : State W T A X M Q :=
  { s with pc := Function.update s.pc w p }

/-- Move a token from one spot to another. -/
def move (s : State W T A X M Q) (d : Desc W T A) (x y : Spot W T X Q) : State W T A X M Q :=
  { s with tokens := moved s.tokens d x y }

/-- `publish_saved_context`, `claim_saved_context` and `clear_saved_context`. -/
def setCtx (s : State W T A X M Q) (d : Desc W T A) (c : Option (Ctx W T A X M)) :
    State W T A X M Q :=
  { s with ctx := Function.update s.ctx d c }

/-- The slot a switch is going to use is the worker's. -/
def claim (s : State W T A X M Q) (d : Dest T X) (o : Option W) : State W T A X M Q :=
  match d with
  | .slot x => { s with claimed := Function.update s.claimed x o }
  | .queue | .join _ | .park | .root => s

end State

/-- Where a token goes from the callback of a worker. -/
def Dest.spot (loc : W → Q) (wk : W) : Dest T X → Spot W T X Q
  | .queue => .queue (loc wk)
  | .slot x => .slot x
  | .join t => .join t
  | .park => .parked
  | .root => .rootCont wk

/-- What the callback does next. -/
def Tail.pc (wk : W) (onto : Ctx W T A X M) : Tail X M → Pc W T A X M
  | .nothing => .landing wk onto
  | .link x => .linking x wk onto
  | .release m => .releasing m wk onto
  | .call => .run (.called wk onto)

/-- What `finish_and_settle` has to call, if there is no joiner to resume: the
    waker, or the result's destructor. -/
def JoinState.settled (wk : W) (onto : Ctx W T A X M) : JoinState → Pc W T A X M
  | .waker | .detached => .run (.called wk onto)
  | .running | .finished => .landing wk onto

/-- A wait slot has one waiter at a time. -/
def State.free (s : State W T A X M Q) (d : Dest T X) : Prop :=
  match d with
  | .slot x => s.claimed x = none ∧ s.tokens (.slot x) = []
  | .queue | .join _ | .park | .root => True

instance (s : State W T A X M Q) (d : Dest T X) : Decidable (s.free d) := by
  cases d <;> unfold State.free <;> infer_instance

/-- User code acts in the name of the worker's current task: that of a ULT, or
    what a callback has called on top of any task. -/
def State.acts (s : State W T A X M Q) (w : W) (u : Desc W T A) (c : Ctx W T A X M) : Prop :=
  s.pc w = .run c ∧ s.tokens (.cur w) = [u] ∧ c.user = true ∧ (c = .body → u.isUlt = true)

instance (s : State W T A X M Q) (w : W) (u : Desc W T A) (c : Ctx W T A X M) :
    Decidable (s.acts w u c) := by
  unfold State.acts
  infer_instance

/-- What user code suspends for: a yield, a wait, or a condvar's wait with the
    guard it has. Slots of mutex nodes are left to the mutex. -/
def State.suspends (s : State W T A X M Q) (node : X → Bool) (u : Desc W T A) :
    Dest T X → Tail X M → Prop
  | .queue, .nothing => True
  | .slot x, .call => node x = false
  | .slot x, .release m => node x = false ∧ s.owner m = some u
  | _, _ => False

instance (s : State W T A X M Q) (node : X → Bool) (u : Desc W T A) (d : Dest T X)
    (k : Tail X M) : Decidable (s.suspends node u d k) := by
  cases d <;> cases k <;> unfold State.suspends <;> infer_instance

/-- A condvar's wait gives its guard away. -/
def State.giveUp (s : State W T A X M Q) : Tail X M → State W T A X M Q
  | .release m => { s with owner := Function.update s.owner m none }
  | .nothing | .link _ | .call => s

/-- What user code suspends for conditionally. -/
def Dest.conditional (node : X → Bool) : Dest T X → Prop
  | .slot x => node x = false
  | .join _ | .park => True
  | .queue | .root => False

instance (node : X → Bool) (d : Dest T X) : Decidable (d.conditional node) := by
  cases d <;> unfold Dest.conditional <;> infer_instance

/-- The slot takes the token; a join word only while it is not `FINISHED`, a
    waker word only if nothing has notified it meanwhile, which is open here. -/
def State.accepts (s : State W T A X M Q) : Dest T X → Prop
  | .join t => s.joinState t ≠ .finished ∧ s.tokens (.join t) = []
  | .queue | .slot _ | .park | .root => True

instance (s : State W T A X M Q) (d : Dest T X) : Decidable (s.accepts d) := by
  cases d <;> unfold State.accepts <;> infer_instance

/-- And it may refuse it. -/
def State.refuses (s : State W T A X M Q) : Dest T X → Prop
  | .join t => ¬(s.joinState t ≠ .finished ∧ s.tokens (.join t) = [])
  | .park => True
  | .queue | .slot _ | .root => False

instance (s : State W T A X M Q) (d : Dest T X) : Decidable (s.refuses d) := by
  cases d <;> unfold State.refuses <;> infer_instance

/-- A conditional callback calls user code once it has stored the token: the
    closure of `wait_with_cond`, or the destructor of the waker that a joiner has
    replaced. -/
def State.asks (s : State W T A X M Q) : Dest T X → Bool
  | .slot _ => true
  | .join t => s.joinState t = .waker
  | .queue | .park | .root => false

/-- The joiner is in the join word, in the place of what was there. -/
def State.joined (s : State W T A X M Q) : Dest T X → State W T A X M Q
  | .join t => { s with joinState := Function.update s.joinState t .running }
  | .queue | .slot _ | .park | .root => s

/-- A join consumes the handle. -/
def State.mayJoin (s : State W T A X M Q) : Dest T X → Prop
  | .join t => s.handle t = true
  | .queue | .slot _ | .park | .root => True

instance (s : State W T A X M Q) (d : Dest T X) : Decidable (s.mayJoin d) := by
  cases d <;> unfold State.mayJoin <;> infer_instance

/-- A join uses its handle up. -/
def State.consume (s : State W T A X M Q) : Dest T X → State W T A X M Q
  | .join t => { s with handle := Function.update s.handle t false }
  | .queue | .slot _ | .park | .root => s

/-- Somebody has the handle of a task that is not done. -/
def State.pending (s : State W T A X M Q) (t : T) : Prop :=
  s.handle t = true ∧ s.joinState t ≠ .finished

instance (s : State W T A X M Q) (t : T) : Decidable (s.pending t) := by
  unfold State.pending
  infer_instance

/-- Where the drop of a guard goes on once it is through. -/
def Ctx.through : Ctx W T A X M → Pc W T A X M
  | .callback _ wk onto => .landing wk onto
  | .unlocking _ back => .run back
  | c => .run c

/-- The point in the code is the spinning loop of a drop. -/
def Ctx.spins (m : M) : Ctx W T A X M → Prop
  | .unlocking m' _ | .callback m' _ _ => m' = m
  | .entry | .body | .called _ _ | .asked _ _ _ _ _ _ => False

instance (m : M) (c : Ctx W T A X M) : Decidable (c.spins m) := by
  cases c <;> unfold Ctx.spins <;> infer_instance

/-- The successor's link is written. -/
def State.successorLinked (s : State W T A X M Q) (m : M) : Prop :=
  match s.order m with
  | _ :: y :: _ => s.linked y = true
  | [] | [_] => False

instance (s : State W T A X M Q) (m : M) : Decidable (s.successorLinked m) := by
  unfold State.successorLinked
  split <;> infer_instance

/-- When an action is enabled. -/
def guard (loc : W → Q) (node : X → Bool) (s : State W T A X M Q) :
    Action W T A X M Q → Prop
  | .runOn w v q d =>
      s.pc w = .run .body ∧ s.tokens (.cur w) = [.root v] ∧ d ∈ s.tokens (.queue q) ∧
        d.isPollFn = false
  | .suspendToSched w u d k c => s.acts w u c ∧ s.suspends node u d k ∧ s.free d
  | .condSuspendToSched w u d c => s.acts w u c ∧ d.conditional node ∧ s.free d ∧ s.mayJoin d
  | .exitToSched w t =>
      s.acts w (.ult t) .body ∧ s.tokens (.join t) = [] ∧ s.joinState t ≠ .detached
  | .exitAbandoned w t => s.acts w (.ult t) .body ∧ s.joinState t = .detached
  | .exitToCont w t n => s.acts w (.ult t) .body ∧ s.tokens (.join t) = [n]
  | .enter w u x n c => s.acts w u c ∧ node x = false ∧ s.tokens (.slot x) = [n]
  | .swap w u x y n c =>
      s.acts w u c ∧ node x = false ∧ node y = false ∧ s.free (.slot x) ∧
        s.tokens (.slot y) = [n]
  | .spawn w u t' c | .build w u t' c => s.acts w u c ∧ s.live (.ult t') = false
  | .lock w u m x c =>
      s.acts w u c ∧ node x = true ∧ s.queued x = false ∧ s.free (.slot x) ∧ s.order m = []
  | .lockWait w u m x c =>
      s.acts w u c ∧ node x = true ∧ s.queued x = false ∧ s.free (.slot x) ∧ s.order m ≠ []
  | .dropGuard w u m c => s.acts w u c ∧ s.owner m = some u
  | .spinYield w u m c =>
      s.pc w = .run c ∧ s.tokens (.cur w) = [u] ∧ c.spins m ∧ ¬ s.successorLinked m
  | .switchNext w u op c q d => s.pc w = .calling u op c ∧ d ∈ s.tokens (.queue q)
  | .takeRootCont w u op c n => s.pc w = .calling u op c ∧ s.tokens (.rootCont w) = [n]
  | .pushBack w u op c a n =>
      s.pc w = .bounced u op c ∧ s.tokens (.hand w) = [a] ∧ s.tokens (.rootCont w) = [n]
  | .suspendShim w u n d k c onto =>
      s.pc w = .picked u (.suspend d k) c ∧ s.tokens (.cur w) = [u] ∧
        s.tokens (.hand w) = [n] ∧ s.ctx n = some onto
  | .condSuspendShim w u n d c onto =>
      s.pc w = .picked u (.cond d) c ∧ s.tokens (.cur w) = [u] ∧ s.tokens (.hand w) = [n] ∧
        s.ctx n = some onto
  | .exitShim w t n e c onto =>
      s.pc w = .picked (.ult t) (.exit e) c ∧ s.tokens (.cur w) = [.ult t] ∧
        s.tokens (.hand w) = [n] ∧ s.ctx n = some onto
  | .publish w u d k wk onto => s.pc w = .publish u d k wk onto ∧ s.tokens (.prev w) = [u]
  | .link w x wk onto => s.pc w = .linking x wk onto
  | .release w m wk onto => s.pc w = .releasing m wk onto
  | .handOver w m c x y rest n =>
      s.pc w = .run c ∧ c.spins m ∧ s.order m = x :: y :: rest ∧ s.linked y = true ∧
        s.tokens (.slot y) = [n]
  | .returned w wk onto => s.pc w = .run (.called wk onto)
  | .land w wk onto => s.pc w = .landing wk onto
  | .register w u n d c onto =>
      s.pc w = .deciding u n d c onto ∧ s.tokens (.prev w) = [u] ∧ s.accepts d
  | .answer w u n d wk c onto => s.pc w = .run (.asked u n d wk c onto)
  | .commit w e u n d wk c onto =>
      s.pc w = .published u n d wk c onto ∧ s.tokens (.cur wk) = [e]
  | .retract w e u n x wk c onto =>
      s.pc w = .published u n (.slot x) wk c onto ∧ s.tokens (.slot x) = [u] ∧
        s.tokens (.cur wk) = [e]
  | .cancel w u n d c onto =>
      s.pc w = .deciding u n d c onto ∧ s.tokens (.prev w) = [u] ∧ s.refuses d
  | .putBack w u n wk c => s.pc w = .cancelled u n wk c ∧ s.tokens (.hand w) = [n]
  | .commitFinished w t wk onto => s.pc w = .exiting .handoff t wk onto
  | .freeTask w t wk onto => s.pc w = .exiting .abandoned t wk onto
  | .settle w t wk onto => s.pc w = .exiting .settle t wk onto
  | .abandon t | .registerWaker t => s.pending t
  | .notify w x n => (s.pc w).isRun = true ∧ node x = false ∧ s.tokens (.slot x) = [n]
  | .wake d _ => d ∈ s.tokens .parked
  | .tryPop w u _ d c => s.acts w u c ∧ d ∈ s.tokens (.queue (loc w))
  | .discard w t' c =>
      s.pc w = .judging t' (.ult t') c ∧ s.tokens (.hand w) = [.ult t'] ∧
        s.ctx (.ult t') = some .entry
  | .rePush w t' d c =>
      s.pc w = .judging t' d c ∧ s.tokens (.hand w) = [d] ∧
        ¬(d = .ult t' ∧ s.ctx d = some .entry)
  | .spawnAsync w a => (s.pc w).isRun = true ∧ s.live (.async a) = false
  | .poll w q a => (s.pc w).isRun = true ∧ .async a ∈ s.tokens (.queue q)
  | .pollReady a | .pollPending a => .async a ∈ s.tokens .polling
  | .wakeAsync a x _ => (x = .asleep ∨ x = .polling) ∧ .async a ∈ s.tokens x

instance (loc : W → Q) (node : X → Bool) (s : State W T A X M Q) (a : Action W T A X M Q) :
    Decidable (guard loc node s a) := by
  cases a <;> unfold guard <;> infer_instance

/-- The node is at the end of the mutex's queue. -/
def State.enqueue (s : State W T A X M Q) (m : M) (x : X) : State W T A X M Q :=
  { s with
    order := Function.update s.order m (s.order m ++ [x])
    queued := Function.update s.queued x true
    linked := Function.update s.linked x false }

/-- The state an action leads to. -/
def next (loc : W → Q) (s : State W T A X M Q) : Action W T A X M Q → State W T A X M Q
  | .runOn w v q d =>
      (s.move d (.queue q) (.hand w)).goto w (.picked (.root v) (.suspend .root .nothing) .body)
  | .suspendToSched w u d k c =>
      ((s.giveUp k).claim d (some w)).goto w (.calling u (.suspend d k) c)
  | .condSuspendToSched w u d c =>
      ((s.consume d).claim d (some w)).goto w (.calling u (.cond d) c)
  | .exitToSched w t => s.goto w (.calling (.ult t) (.exit .settle) .body)
  | .exitAbandoned w t => s.goto w (.calling (.ult t) (.exit .abandoned) .body)
  | .exitToCont w t n =>
      (s.move n (.join t) (.hand w)).goto w (.picked (.ult t) (.exit .handoff) .body)
  | .enter w u x n c =>
      (s.move n (.slot x) (.hand w)).goto w (.picked u (.suspend .queue .nothing) c)
  | .swap w u x y n c =>
      ((s.move n (.slot y) (.hand w)).claim (.slot x) (some w)).goto w
        (.picked u (.suspend (.slot x) .nothing) c)
  | .spawn w u t' c =>
      let s1 := (s.move u (.cur w) (.prev w)).setCtx u (some c)
      -- A fresh descriptor has no saved context, and its stack is entered
      -- through the callback.
      let s2 := { s1 with
        tokens := added s1.tokens (.ult t') (.cur w)
        live := Function.update s.live (.ult t') true
        joinState := Function.update s.joinState t' .running
        handle := Function.update s.handle t' true }
      (s2.setCtx (.ult t') none).goto w (.publish u .queue .nothing w .body)
  | .lock _ u m x _ => { s.enqueue m x with owner := Function.update s.owner m (some u) }
  | .lockWait w u m x c =>
      ((s.enqueue m x).claim (.slot x) (some w)).goto w
        (.calling u (.suspend (.slot x) (.link x)) c)
  | .dropGuard w _ m c =>
      let s1 := { s with owner := Function.update s.owner m none }
      match s.order m with
      | [x] => { s1 with
          order := Function.update s.order m []
          queued := Function.update s.queued x false }
      | _ => s1.goto w (.run (.unlocking m c))
  | .spinYield w u _ c => s.goto w (.calling u (.suspend .queue .nothing) c)
  | .switchNext w u op c q d =>
      (s.move d (.queue q) (.hand w)).goto w
        (if d.isPollFn then .bounced u op c else .picked u op c)
  | .takeRootCont w u op c n =>
      (s.move n (.rootCont w) (.hand w)).goto w (.picked u op c)
  | .pushBack w u op c a n =>
      ((s.move a (.hand w) (.queue (loc w))).move n (.rootCont w) (.hand w)).goto w
        (.picked u op c)
  | .suspendShim w u n d k c onto =>
      let s1 := (s.setCtx n none).setCtx u (some c)
      ((s1.move u (.cur w) (.prev w)).move n (.hand w) (.cur w)).goto w (.publish u d k w onto)
  | .condSuspendShim w u n d c onto =>
      -- The destination's context is only looked at.
      let s1 := s.setCtx u (some c)
      ((s1.move u (.cur w) (.prev w)).move n (.hand w) (.cur w)).goto w
        (.deciding u n d c onto)
  | .exitShim w t n e _ onto =>
      let s1 := s.setCtx n none
      let s2 := { s1 with
        tokens := removed s.tokens (.ult t) (.cur w)
        live := Function.update s.live (.ult t) false }
      (s2.move n (.hand w) (.cur w)).goto w (.exiting e t w onto)
  | .publish w u d k wk onto =>
      ((s.move u (.prev w) (d.spot loc wk)).claim d none).goto w (k.pc wk onto)
  | .link w x wk onto =>
      { s with linked := Function.update s.linked x true }.goto w (.landing wk onto)
  | .release w m wk onto =>
      match s.order m with
      | [x] => { s with
          order := Function.update s.order m []
          queued := Function.update s.queued x false }.goto w (.landing wk onto)
      | _ => s.goto w (.run (.callback m wk onto))
  | .handOver w m c x y rest n =>
      let s1 := { s with
        order := Function.update s.order m (y :: rest)
        queued := Function.update s.queued x false
        owner := Function.update s.owner m (some n) }
      (s1.move n (.slot y) (.queue (loc w))).goto w c.through
  | .returned w wk onto => s.goto w (.landing wk onto)
  | .land w wk onto =>
      { s with handed := Function.update s.handed w wk }.goto w (.run onto.resumed)
  | .register w u n d c onto =>
      (((s.move u (.prev w) (d.spot loc w)).claim d none).joined d).goto w
        (if s.asks d then .run (.asked u n d w c onto) else .published u n d w c onto)
  | .answer w u n d wk c onto => s.goto w (.published u n d wk c onto)
  | .commit w e _ _ _ wk _ onto =>
      { s.setCtx e none with handed := Function.update s.handed w wk }.goto w
        (.run onto.resumed)
  | .retract w e u _ x wk c _ =>
      (((s.setCtx u none).move e (.cur wk) (.hand w)).move u (.slot x) (.cur wk)).goto w
        (.cancelled u e wk c)
  | .cancel w u n _ c _ =>
      (((s.setCtx u none).move n (.cur w) (.hand w)).move u (.prev w) (.cur w)).goto w
        (.cancelled u n w c)
  | .putBack w _ n wk c =>
      { s.move n (.hand w) (if n.isRoot then .rootCont wk else .queue (loc wk)) with
        handed := Function.update s.handed w wk }.goto w (.run c)
  | .commitFinished w t wk onto =>
      { s with joinState := Function.update s.joinState t .finished }.goto w (.landing wk onto)
  | .freeTask w _ wk onto => s.goto w (.landing wk onto)
  | .settle w t wk onto =>
      let s1 := { s with joinState := Function.update s.joinState t .finished }
      match s.tokens (.join t) with
      | [] => s1.goto w ((s.joinState t).settled wk onto)
      | j :: _ => (s1.move j (.join t) (.queue (loc wk))).goto w (.landing wk onto)
  | .abandon t =>
      { s with
        joinState := Function.update s.joinState t .detached
        handle := Function.update s.handle t false }
  | .registerWaker t => { s with joinState := Function.update s.joinState t .waker }
  | .notify w x n => s.move n (.slot x) (.queue (loc w))
  | .wake d q => s.move d .parked (.queue q)
  | .build w _ t' _ =>
      { s.setCtx (.ult t') (some .entry) with
        tokens := added s.tokens (.ult t') (.queue (loc w))
        live := Function.update s.live (.ult t') true
        joinState := Function.update s.joinState t' .running
        handle := Function.update s.handle t' true }
  | .tryPop w _ t' d c => (s.move d (.queue (loc w)) (.hand w)).goto w (.judging t' d c)
  | .discard w t' c =>
      { s with
        tokens := removed s.tokens (.ult t') (.hand w)
        live := Function.update s.live (.ult t') false }.goto w (.run c)
  | .rePush w _ d c => (s.move d (.hand w) (.queue (loc w))).goto w (.run c)
  | .spawnAsync w a =>
      { s with
        tokens := added s.tokens (.async a) (.queue (loc w))
        live := Function.update s.live (.async a) true }
  | .poll _ q a => s.move (.async a) (.queue q) .polling
  | .pollReady a =>
      { s with
        tokens := removed s.tokens (.async a) .polling
        live := Function.update s.live (.async a) false }
  | .pollPending a => s.move (.async a) .polling .asleep
  | .wakeAsync a x q => s.move (.async a) x (.queue q)

/-- After the first switch of `init`: the caller is in the run queue of worker 0,
    and every worker is in its loop. -/
def start (loc : W → Q) (home : W) (caller : T) : State W T A X M Q where
  tokens
    | .cur w => [.root w]
    | .queue q => if q = loc home then [.ult caller] else []
    | .slot _ | .join _ | .parked | .rootCont _ | .hand _ | .prev _ | .polling | .asleep => []
  live
    | .root _ => true
    | .ult t => t == caller
    | .async _ => false
  ctx d := if d = .ult caller then some .body else none
  pc _ := .run .body
  handed w := w
  joinState _ := .running
  handle _ := false
  claimed _ := none
  order _ := []
  queued _ := false
  linked _ := false
  owner _ := none

/-- The workers as a guarded transition system. -/
def system (loc : W → Q) (node : X → Bool) (home : W) (caller : T) :
    System (State W T A X M Q) (Action W T A X M Q) where
  init s := s = start loc home caller
  guard := guard loc node
  next := next loc

instance (loc : W → Q) (node : X → Bool) (home : W) (caller : T) (s : State W T A X M Q)
    (a : Action W T A X M Q) : Decidable ((system loc node home caller).guard s a) :=
  inferInstanceAs (Decidable (guard loc node s a))

end

end Worker

end Cmpth

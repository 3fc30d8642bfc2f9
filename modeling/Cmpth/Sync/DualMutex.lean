import Mathlib.Logic.Function.Basic
import Cmpth.Core.System

/-!
# The Dual Mutex

`DualMutex` over the dual wait slot: an MCS lock whose queue mixes user-level
threads, async tasks and plain OS threads.

One `lock` call is one node. `start_lock` boxes the node and swaps it into
`tail`; a call that found a predecessor publishes its wait slot and only then
the link from the predecessor, and a guard's drop follows that link to the
waiter it must wake. The state is therefore indexed by node addresses. A node
is `free` before its call and after its guard is gone, and the allocator may
hand a free address to any later call, so a stale address is not ruled out by
the model.

How a waiter gets its guard depends on its kind. A thread runs again only
once it was woken: its continuation has been pushed, or its parker's `done`
flag set. A pending lock future is polled by whoever owns it, at any time,
and `StacklessResumable::wait_with` answers every poll after the first with
`Ready`. Those are the actions `resume` and `poll`.

## Main definitions

* `Waiter`: What a wait slot can hold, by its pointer tag.
* `Phase`: How far one `lock` call and its guard's drop have come.
* `Node`: A queue node and the frame of the call that owns it.
* `State`: The lock word and the nodes.
* `Action`: One atomic operation of one call.
* `system`: The lock as a guarded transition system.
* `HasGuard`: A call whose guard is live, up to the hand-off in its drop.
* `Waits`: A call that has enqueued and has no guard yet.
* `Exclusive`: What the lock promises of a state.
-/

namespace Cmpth

namespace DualMutex

/-- What a `DualResumable` slot holds: a ULT continuation (tag 0), a boxed
    waker (`ASYNC_TAG`) or an OS thread's parker (`OS_TAG`). -/
inductive Waiter where
  | ult
  | async
  | os
  deriving DecidableEq, Repr

/-- How far the `lock` call at a node, and then its guard, have come. -/
inductive Phase (A : Type*) where
  /-- No call owns the address. -/
  | free
  /-- `start_lock` returned a predecessor; the wait slot is still empty. -/
  | enqueued
  /-- The slot is published; `f`, which stores the link, has not run. -/
  | published
  /-- Linked: suspended, parked, or `Pending`. -/
  | waiting
  /-- The guard has been returned. -/
  | locked
  /-- `drop`: the compare and exchange failed; spinning on `next`. -/
  | following
  /-- `drop`: `next` was read; `notify` is about to take the slot. -/
  | notifying (n : A)
  /-- `drop`: the waiter was taken out of the slot and is about to be woken. -/
  | waking (n : A) (w : Waiter)
  deriving DecidableEq, Repr

/-- A `UniNode` with the frame of the call that owns it. `prev` is what
    `start_lock` returned; `wokenBy` records whose drop woke the waiter. -/
structure Node (A : Type*) where
  waiter : Waiter
  phase : Phase A
  prev : Option A
  next : Option A
  wait : Option Waiter
  wokenBy : Option A

/-- The lock: its `tail` word and the nodes by address. -/
structure State (A : Type*) where
  tail : Option A
  node : A → Node A

/-- The accesses of `lock`, of a future's poll and of a guard's drop. -/
inductive Action (A : Type*) where
  /-- `start_lock`: a fresh node at `p` and the swap of `tail`. -/
  | startLock (p : A) (w : Waiter)
  /-- `wait_with` or `register`: publish the waiter in the node's slot. -/
  | publish (p : A)
  /-- `f`: store the link in the predecessor. -/
  | link (p : A)
  /-- A woken thread returns from `wait_with`. -/
  | resume (p : A)
  /-- A pending lock future is polled again. -/
  | poll (p : A)
  /-- `drop`: the compare and exchange of `tail`. -/
  | unlock (p : A)
  /-- `drop`: one load of `next`. -/
  | follow (p : A)
  /-- `notify` on the successor `n`: take the waiter out of its slot. -/
  | take (p n : A)
  /-- `wake_raw`: wake it; the guard's own node is freed. -/
  | wake (p n : A) (w : Waiter)
  deriving DecidableEq, Repr

variable {A : Type*} [DecidableEq A]

/-- Change one node. -/
def State.modify (s : State A) (p : A) (f : Node A → Node A) : State A :=
  { s with node := Function.update s.node p (f (s.node p)) }

/-- The node `start_lock` leaves behind. A call that found `tail` null has
    nothing to wait for and returns its guard. -/
def startNode (w : Waiter) (prev : Option A) : Node A :=
  { waiter := w, phase := if prev = none then .locked else .enqueued, prev := prev,
    next := none, wait := none, wokenBy := none }

/-- When each action can be taken: the call is at the operation's point in
    its program. Only `resume` waits for anything, and a poll does not. -/
def guard (s : State A) : Action A → Prop
  | .startLock p _ => (s.node p).phase = .free
  | .publish p => (s.node p).phase = .enqueued
  | .link p => (s.node p).phase = .published
  | .resume p =>
      (s.node p).phase = .waiting ∧ (s.node p).waiter ≠ .async ∧ (s.node p).wokenBy ≠ none
  | .poll p => (s.node p).phase = .waiting ∧ (s.node p).waiter = .async
  | .unlock p => (s.node p).phase = .locked
  | .follow p => (s.node p).phase = .following
  | .take p n => (s.node p).phase = .notifying n
  | .wake p n w => (s.node p).phase = .waking n w

instance (s : State A) : ∀ a : Action A, Decidable (guard s a)
  | .startLock .. | .publish _ | .link _ | .unlock _ | .follow _ | .take .. | .wake .. =>
      inferInstanceAs (Decidable (_ = _))
  | .resume _ => inferInstanceAs (Decidable (_ ∧ _ ≠ _ ∧ _ ≠ _))
  | .poll _ => inferInstanceAs (Decidable (_ ∧ _))

/-- The effect of each action. -/
def next (s : State A) : Action A → State A
  | .startLock p w =>
      { tail := some p, node := Function.update s.node p (startNode w s.tail) }
  | .publish p => s.modify p fun n => { n with wait := some n.waiter, phase := .published }
  | .link p =>
      let s' := match (s.node p).prev with
        | some a => s.modify a fun n => { n with next := some p }
        | none => s
      s'.modify p fun n => { n with phase := .waiting }
  | .resume p => s.modify p fun n => { n with phase := .locked }
  | .poll p => s.modify p fun n => { n with phase := .locked }
  | .unlock p =>
      if s.tail = some p then { s.modify p (fun n => { n with phase := .free }) with tail := none }
      else s.modify p fun n => { n with phase := .following }
  | .follow p =>
      match (s.node p).next with
      | some n => s.modify p fun m => { m with phase := .notifying n }
      | none => s
  | .take p n =>
      let s' := s.modify n fun m => { m with wait := none }
      match (s.node n).wait with
      | some w => s'.modify p fun m => { m with phase := .waking n w }
      | none => s'.modify p fun m => { m with phase := .free }
  | .wake p n _ =>
      (s.modify n fun m => { m with wokenBy := some p }).modify p
        fun m => { m with phase := .free }

/-- The lock starts unlocked, with every address free. -/
def init (s : State A) : Prop :=
  s.tail = none ∧ ∀ p, (s.node p).phase = .free

/-- The dual mutex as a guarded transition system. -/
def system : System (State A) (Action A) where
  init := init
  guard := guard
  next := next

instance decidableSystemGuard (s : State A) (a : Action A) :
    Decidable ((system (A := A)).guard s a) :=
  inferInstanceAs (Decidable (guard s a))

/-- The phases of a live guard, from its return until its drop has handed the
    lock on. A drop under way still counts, up to its compare and exchange or
    to its waking the successor. -/
def Phase.guarded : Phase A → Bool
  | .free | .enqueued | .published | .waiting => false
  | .locked | .following | .notifying _ | .waking _ _ => true

/-- The phases of a call that found a predecessor and has no guard yet. -/
def Phase.waits : Phase A → Bool
  | .enqueued | .published | .waiting => true
  | .free | .locked | .following | .notifying _ | .waking _ _ => false

/-- The call at `p` has a live guard. -/
def HasGuard (s : State A) (p : A) : Prop :=
  (s.node p).phase.guarded = true

/-- The call at `p` waits for its predecessor. -/
def Waits (s : State A) (p : A) : Prop :=
  (s.node p).phase.waits = true

/-- A guard was come by properly: the swap found the queue empty, or the drop
    of the predecessor's guard has woken the node. -/
def Entitled (s : State A) (p : A) : Prop :=
  (s.node p).prev = none ∨ ((s.node p).wokenBy ≠ none ∧ (s.node p).wokenBy = (s.node p).prev)

/-- What the lock promises of a state: at most one live guard, and every live
    guard properly come by. -/
structure Exclusive (s : State A) : Prop where
  unique : ∀ p q, HasGuard s p → HasGuard s q → p = q
  entitled : ∀ p, HasGuard s p → Entitled s p

/-- A pending lock future is polled again only after its node was woken. -/
def PollsWoken (s : State A) : Action A → Prop
  | .poll p => (s.node p).wokenBy ≠ none
  | _ => True

end DualMutex

end Cmpth

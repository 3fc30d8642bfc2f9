import Mathlib.Logic.Function.Basic
import Cmpth.Core.System
import Cmpth.Join.Protocol

/-!
# Parallel Calls

`parallel_call` builds `b` as a task with a join word and pushes it, and then
runs `a`: as a plain call on the caller's stack (`Kind.stackful`), or as a
future it polls (`Kind.async`). Only when `a` has returned does the caller look
where `b` is. It pops its run queue. If `b` comes back it runs `b` itself, and
otherwise it makes the `JoinHandle` by which it waits.

The call may be left early. `a` may panic, or the future of the call may be
dropped while `a` is pending; nothing that the caller has by then has a
destructor that knows of `b`. Once `b` is polled in place its destructor is
`BranchPoll`'s, and once there is a handle, it is the handle's.

`b` as a task is the join protocol's task, whose handle nobody has yet. The
descriptor owns the stack or the frame, so the two are one. A thread whose saved
context is still `fresh_ctx` is one that has not started.

## Main definitions

* `Stage`: How far the call is.
* `Place`: Where `b` is.
* `State`: The call, `b` and what has been reclaimed.
* `Action`: One operation of the caller, of `b`, or on `b`.
* `system`: The call as a guarded transition system.
* `AtRest`: Nobody can take another step of `b`.
* `AtMostOnce`, `EachOnce`: How often what belongs to `b` was reclaimed.
-/

namespace Cmpth

namespace Join

namespace Call

/-- How the call was left. -/
inductive Exit where
  /-- While `a` was pending: it panicked, or the call's future was dropped. -/
  | unwound
  /-- After `b` was run in place, or while it was. -/
  | inlined
  /-- By way of the handle. -/
  | joined
  deriving DecidableEq, Repr

/-- How far the call is. -/
inductive Stage where
  /-- `a` is being run, or its future is pending. -/
  | pending
  /-- `a` has returned. -/
  | popping
  /-- `try_pop` has returned `b`. -/
  | popped
  /-- `b` is run as a plain call, or polled by `BranchPoll`. -/
  | inline
  /-- The handle has been made. -/
  | joining
  | left (how : Exit)
  deriving DecidableEq, Repr

/-- Where `b` is. -/
inductive Place where
  | queued
  /-- Suspended or parked. The flag tells whether anybody can wake it. -/
  | suspended (wakeable : Bool)
  /-- A worker runs or polls it, or it has exited. -/
  | out
  /-- Popped by the caller. -/
  | caller
  deriving DecidableEq, Repr

/-- The call, `b` as a task, and the bookkeeping: how often the call has freed
    the descriptor and returned a result by itself, how often the closure or
    future was consumed or dropped, and how many results there have been. -/
structure State (V P A : Type*) where
  join : Join.State V P A
  stage : Stage
  place : Place
  freed : ℕ
  returned : ℕ
  bodies : ℕ
  made : ℕ

/-- What the caller, `b` and whoever runs it do. -/
inductive Action (V P A : Type*) where
  /-- A worker runs or polls `b`: it has popped it, stolen it, or is handed
      it by whoever woke it. -/
  | dispatch
  /-- A step of `b` itself, or of its exit. -/
  | task (a : Join.Action V P A)
  /-- `b` is suspended, or parked after a poll; `none` if it is requeued. -/
  | suspend (wakeable : Option Bool)
  | wake
  /-- The last that could wake `b` is gone. -/
  | forget
  /-- `a` panics, or the future is dropped while `a` is pending. -/
  | unwind
  | aReturns
  /-- `try_pop`. The flag tells whether it returns `b`. -/
  | pop (hit : Bool)
  /-- `b` is to be run in place. -/
  | keep
  | putBack
  /-- `b` returns in place, or else panics there or is dropped. -/
  | inlineDone (ok : Bool)
  /-- A step of the handle's owner. -/
  | handle (a : Join.Action V P A)
  /-- The handle is gone. -/
  | leave
  deriving DecidableEq, Repr

variable {V P A : Type*}

/-- The steps of the task. `begin` and `park` are part of others here. -/
def ofTask : Join.Action V P A → Bool
  | .pending | .complete | .handoffLoad | .abandonedLoad | .write _ | .commitFinished _ | .swap
  | .resume _ | .wake _ | .claim _ | .dropResult _ | .free _ | .dropWaker _ => true
  | .begin | .park | .join _ | .isFinished _ | .await _ | .awaitForeign | .abandon | .load _
  | .loadWaker | .box .. | .exchange .. | .unbox _ | .dropReplaced _ | .take | .reclaim => false

/-- The steps of the handle's owner. A thread joins it; a future awaits it and
    may be dropped. -/
def ofHandle (k : Kind) : Join.Action V P A → Bool
  | .join _ => k == .stackful
  | .await _ | .awaitForeign | .abandon => k == .async
  | .isFinished _ | .load _ | .loadWaker | .box .. | .exchange .. | .unbox _ | .dropReplaced _
  | .take | .reclaim => true
  | .begin | .pending | .complete | .handoffLoad | .abandonedLoad | .write _ | .commitFinished _
  | .swap | .resume _ | .wake _ | .claim _ | .dropResult _ | .free _ | .dropWaker _
  | .park => false

/-- The task has been run. -/
def started : TaskPc A → Bool
  | .idle => false
  | _ => true

variable [DecidableEq V] [DecidableEq A] (E : Encoding V P A)

/-- The caller runs `b` itself. A thread frees the descriptor first and then
    reads the closure; `BranchPoll` frees when it is done. -/
def State.keep (s : State V P A) : State V P A :=
  match s.join.kind with
  | .stackful => { s with stage := .inline, freed := s.freed + 1, bodies := s.bodies + 1 }
  | .async => { s with stage := .inline }

/-- `b` has been called in place. -/
def State.inlineDone (s : State V P A) (ok : Bool) : State V P A :=
  let s' : State V P A :=
    { s with
      stage := .left .inlined
      returned := s.returned + ok.toNat
      made := s.made + ok.toNat }
  match s.join.kind with
  | .stackful => s'
  | .async => { s' with freed := s.freed + 1, bodies := s.bodies + 1 }

/-- A worker comes to `b`. A thread reads its closure when it first runs. -/
def State.dispatch (s : State V P A) : State V P A :=
  match s.join.task, s.join.kind with
  | .idle, .stackful =>
      { s with join := Join.next E s.join .begin, place := .out, bodies := s.bodies + 1 }
  | .idle, .async => { s with join := Join.next E s.join .begin, place := .out }
  | _, _ => { s with place := .out }

/-- A future is dropped when it is done, and then there is a result. -/
def State.task (s : State V P A) (a : Join.Action V P A) : State V P A :=
  let s' : State V P A := { s with join := Join.next E s.join a }
  match a, s.join.kind with
  | .complete, .stackful => { s' with made := s.made + 1 }
  | .complete, .async => { s' with made := s.made + 1, bodies := s.bodies + 1 }
  | _, _ => s'

/-- `b` gives up its worker, for a queue or until it is woken. -/
def State.suspend (s : State V P A) (wakeable : Option Bool) : State V P A :=
  let rest : Place := wakeable.elim .queued .suspended
  match s.join.task with
  | .park => { s with join := Join.next E s.join .park, place := rest }
  | _ => { s with place := rest }

/-- What an action does. -/
def next (s : State V P A) : Action V P A → State V P A
  | .dispatch => s.dispatch E
  | .task a => s.task E a
  | .suspend w => s.suspend E w
  | .wake => { s with place := .queued }
  | .forget => { s with place := .suspended false }
  | .unwind => { s with stage := .left .unwound }
  | .aReturns => { s with stage := .popping }
  | .pop true => { s with stage := .popped, place := .caller }
  | .pop false => { s with stage := .joining }
  | .keep => s.keep
  | .putBack => { s with stage := .joining, place := .queued }
  | .inlineDone ok => s.inlineDone ok
  | .handle a => { s with join := Join.next E s.join a }
  | .leave => { s with stage := .left .joined }

/-- When an action can be taken: the call has come that far, and `b` is there. -/
def guard (s : State V P A) : Action V P A → Prop
  | .dispatch => s.place = .queued ∨ s.place = .suspended true
  | .task a => s.place = .out ∧ ofTask a = true ∧ Join.guard E s.join a
  | .suspend _ =>
      s.place = .out ∧ (s.join.task = .park ∨ s.join.kind = .stackful ∧ s.join.task = .running)
  | .wake | .forget => s.place = .suspended true
  | .unwind | .aReturns => s.stage = .pending
  | .pop hit => s.stage = .popping ∧ (hit = true → s.place = .queued)
  | .keep => s.stage = .popped ∧ (s.join.kind = .stackful → s.join.task = .idle)
  | .putBack => s.stage = .popped ∧ s.join.kind = .stackful ∧ s.join.task ≠ .idle
  | .inlineDone _ => s.stage = .inline
  | .handle a => s.stage = .joining ∧ ofHandle s.join.kind a = true ∧ Join.guard E s.join a
  | .leave => s.stage = .joining ∧ s.join.handle = .gone ∧ s.join.replaced = none

/-- `b` has been pushed. It is a task that has not run, and as if with a
    handle. -/
def init (s : State V P A) : Prop :=
  Join.init E s.join ∧ s.join.handle = .held ∧ s.stage = .pending ∧ s.place = .queued ∧
    s.freed = 0 ∧ s.returned = 0 ∧ s.bodies = 0 ∧ s.made = 0

/-- The call as a guarded transition system. -/
def system : System (State V P A) (Action V P A) where
  init := init E
  guard := guard E
  next := next E

instance decidableSystemGuard [DecidableEq P] (s : State V P A) :
    ∀ a : Action V P A, Decidable ((system E).guard s a)
  | .dispatch => inferInstanceAs (Decidable (_ ∨ _))
  | .task a => inferInstanceAs (Decidable (_ ∧ _ ∧ Join.guard E s.join a))
  | .suspend _ => inferInstanceAs (Decidable (_ ∧ (_ ∨ _)))
  | .pop _ | .keep => inferInstanceAs (Decidable (_ ∧ (_ → _)))
  | .wake | .forget | .unwind | .aReturns | .inlineDone _ => inferInstanceAs (Decidable (_ = _))
  | .putBack | .leave => inferInstanceAs (Decidable (_ ∧ _ ∧ _))
  | .handle a => inferInstanceAs (Decidable (_ ∧ _ ∧ Join.guard E s.join a))

/-- How often the descriptor was freed, by either side of the join word or by
    the call. -/
def State.frees (s : State V P A) : ℕ :=
  s.join.frees.length + s.freed

/-- How often a result was taken or dropped. -/
def State.takes (s : State V P A) : ℕ :=
  s.join.takes.length + s.returned

/-- The call has been left. -/
def Left (s : State V P A) : Prop :=
  ∃ how, s.stage = .left how

/-- `b` is suspended, with nobody to wake it. -/
def Stuck (s : State V P A) : Prop :=
  s.place = .suspended false

/-- `b` is in no queue, no worker runs or polls it, and nobody can wake it. -/
def AtRest (s : State V P A) : Prop :=
  match s.place with
  | .queued | .suspended true => False
  | .out => ∃ published, s.join.task = .done published
  | .suspended false | .caller => True

/-- Nothing is reclaimed twice, nor a result that there is not. -/
def AtMostOnce (s : State V P A) : Prop :=
  s.frees ≤ 1 ∧ s.bodies ≤ 1 ∧ s.takes ≤ s.made ∧ s.made ≤ 1

/-- The descriptor and the body are reclaimed once, and so is the result if
    there has been one. -/
def EachOnce (s : State V P A) : Prop :=
  s.frees = 1 ∧ s.bodies = 1 ∧ s.takes = s.made

/-- The step does not leave the call while `a` is pending. -/
def Kept (_ : State V P A) : Action V P A → Prop
  | .unwind => False
  | _ => True

end Call

end Join

end Cmpth

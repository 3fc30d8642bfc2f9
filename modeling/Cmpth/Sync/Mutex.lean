import Cmpth.Core.Places
import Cmpth.Core.System

/-!
# The Spin-Locked Mutex and Condvar

`Mutex` and `Condvar`, with each section under a spinlock as one step.

`mutex_lock` takes a free mutex, or pushes a wait slot and suspends; the
spinlock is dropped by the suspension's callback, so that the waiter is in the
queue and parked by the time anybody else can see it. `mutex_unlock` pops the
next waiter, or frees the mutex if there is none. What it has popped owns the
mutex from then on, though it is notified only after the section, and resumed
only after that.

`Condvar::wait` pushes its slot and suspends in the same way. Its callback drops
the condvar's spinlock and then unlocks the mutex, so there is a time at which
the wait is queued and the mutex is still locked for it; a notify may come in
just then, and the waiter may even be queued for the mutex again before its own
callback has unlocked it.

A slot that has been popped is in the hands of whoever notifies it, and after
that it is in a run queue. Which task does the notifying does not matter.

## Main definitions

* `Pc`: What a ULT is doing with the mutex.
* `Spot`: Where the continuation of a suspended ULT is.
* `State`, `Action`: The mutex, its condvars and the ULTs; one step.
* `system`: The mutex as a guarded transition system.
-/

namespace Cmpth

namespace Mutex

/-- What a ULT is doing with the mutex. -/
inductive Pc (C : Type*) where
  | out
  /-- It has a `MutexGuard`. -/
  | holds
  /-- Suspended in `mutex_lock`. -/
  | locking
  /-- Suspended in `Condvar::wait`. -/
  | waiting (c : C)
  /-- Back from the condvar's queue, and about to lock. -/
  | relock
  deriving DecidableEq, Repr

/-- The ULT is suspended. -/
def Pc.suspended {C : Type*} : Pc C → Bool
  | .locking | .waiting _ => true
  | .out | .holds | .relock => false

/-- Where the continuation of a suspended ULT is. -/
inductive Spot (C : Type*) where
  /-- In a slot of the mutex's `waiters`. -/
  | mutex
  /-- In a slot of a condvar's. -/
  | condvar (c : C)
  /-- In a slot that somebody has popped and is about to notify. -/
  | hand
  /-- In a run queue. -/
  | run
  deriving DecidableEq, Repr

/-- The mutex, its condvars and the ULTs. As history: who was queued for the mutex
    and who of them got it, in order; who was queued for each condvar and who of
    them was taken out; and how often each ULT was queued and resumed. -/
structure State (T C : Type*) where
  locked : Bool
  tokens : Spot C → List T
  /-- The ULTs whose wait's callback has still to unlock the mutex. -/
  releasing : List T
  pc : T → Pc C
  arrivals : List T
  acquired : List T
  entered : C → List T
  taken : C → List T
  queued : T → ℕ
  resumed : T → ℕ

/-- The sections of the operations, and the notifies that follow them. -/
inductive Action (T C : Type*) where
  /-- The section of `mutex_lock`. -/
  | lock (t : T)
  /-- The section of `mutex_unlock`, in a guard's drop. -/
  | unlock (t : T)
  /-- The section of `Condvar::wait`. -/
  | wait (t : T) (c : C)
  /-- The section of `mutex_unlock`, in its callback. -/
  | release (t : T)
  | notify (t : T)
  | notifyOne (c : C)
  /-- `drain`; what it returns is notified one by one. -/
  | notifyAll (c : C)
  | resume (t : T)
  deriving DecidableEq, Repr

section

variable {T C : Type*} [DecidableEq T] [DecidableEq C]

namespace State

/-- The section of `mutex_unlock`. -/
def unlock (s : State T C) : State T C :=
  match s.tokens .mutex with
  | [] => { s with locked := false }
  | t :: rest =>
      { s with
        tokens := Function.update (Function.update s.tokens .mutex rest) .hand
          (t :: s.tokens .hand) }

/-- `push_back`, and the suspension. -/
def enqueue (s : State T C) (t : T) (x : Spot C) (p : Pc C) : State T C :=
  { s with
    tokens := Function.update s.tokens x (s.tokens x ++ [t])
    pc := Function.update s.pc t p
    queued := Function.update s.queued t (s.queued t + 1) }

end State

/-- When an action is enabled. -/
def guard (s : State T C) : Action T C → Prop
  | .lock t => s.pc t = .out ∨ s.pc t = .relock
  | .unlock t | .wait t _ => s.pc t = .holds
  | .release t => t ∈ s.releasing
  | .notify t => t ∈ s.tokens .hand
  | .notifyOne _ | .notifyAll _ => True
  | .resume t => t ∈ s.tokens .run

instance (s : State T C) (a : Action T C) : Decidable (guard s a) := by
  cases a <;> unfold guard <;> infer_instance

/-- The state an action leads to. -/
def next (s : State T C) : Action T C → State T C
  | .lock t =>
      if s.locked then
        { s.enqueue t .mutex .locking with arrivals := s.arrivals ++ [t] }
      else { s with locked := true, pc := Function.update s.pc t .holds }
  | .unlock t => { s.unlock with pc := Function.update s.pc t .out }
  | .wait t c =>
      { s.enqueue t (.condvar c) (.waiting c) with
        releasing := t :: s.releasing
        entered := Function.update s.entered c (s.entered c ++ [t]) }
  | .release t => { s.unlock with releasing := s.releasing.erase t }
  | .notify t =>
      { s with
        tokens := Function.update (Function.update s.tokens .hand ((s.tokens .hand).erase t))
          .run (t :: s.tokens .run) }
  | .notifyOne c =>
      match s.tokens (.condvar c) with
      | [] => s
      | t :: rest =>
          { s with
            tokens := Function.update (Function.update s.tokens (.condvar c) rest) .run
              (t :: s.tokens .run)
            taken := Function.update s.taken c (s.taken c ++ [t]) }
  | .notifyAll c =>
      { s with
        tokens := Function.update (Function.update s.tokens (.condvar c) []) .hand
          (s.tokens (.condvar c) ++ s.tokens .hand)
        taken := Function.update s.taken c (s.taken c ++ s.tokens (.condvar c)) }
  | .resume t =>
      let s1 := { s with
        tokens := Function.update s.tokens .run ((s.tokens .run).erase t)
        resumed := Function.update s.resumed t (s.resumed t + 1) }
      match s.pc t with
      | .locking =>
          { s1 with
            pc := Function.update s.pc t .holds
            acquired := s.acquired ++ [t] }
      | _ => { s1 with pc := Function.update s.pc t .relock }

/-- The mutex as a guarded transition system. -/
def system : System (State T C) (Action T C) where
  init s := s.locked = false ∧ (∀ x, s.tokens x = []) ∧ s.releasing = [] ∧
    (∀ t, s.pc t = .out) ∧ s.arrivals = [] ∧ s.acquired = [] ∧
    (∀ c, s.entered c = [] ∧ s.taken c = []) ∧ ∀ t, s.queued t = 0 ∧ s.resumed t = 0
  guard := guard
  next := next

instance (s : State T C) (a : Action T C) : Decidable ((system).guard s a) :=
  inferInstanceAs (Decidable (guard s a))

end

end Mutex

end Cmpth

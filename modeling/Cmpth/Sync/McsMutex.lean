import Cmpth.Core.Places
import Cmpth.Sync.DualMutex

/-!
# The MCS Mutex and Condvar

`McsMutex` and `McsCondvar`, one atomic operation a step.

The chain of nodes is the dual mutex's, with ULTs as the only waiters: the same
swap, publish, link, compare and exchange, load and notify. What comes in is
who is suspended where. A call that found a predecessor suspends its ULT; the
publish and the link are made by the callback, on another stack. Its guard
comes with the node when the ULT is resumed.

`McsCondvar::wait` pushes its slot under a spinlock and suspends; its callback
fills the slot, drops the spinlock, and only then drops the guard. By the time
the guard's drop has come to its compare and exchange the waiter may have been
notified, resumed, and queued for the mutex again with another node. A guard's
drop is therefore a process of its own, also where a ULT drops it itself.

`notify_one` notifies with the spinlock held, `notify_all` after it has taken
the queue and dropped the spinlock. A call of either is a process too: who
makes it does not matter, and whether they have a guard does not either. A
guard may be dropped, and waited with, by any ULT that runs.

Each swap draws a ticket. No operation looks at the tickets.

## Main definitions

* `Pc`: What a ULT is doing.
* `Hold`: What has become of a guard.
* `Spot`: Where the continuation of a suspended ULT is, but for those that are
  in a node or on its way there.
* `State`, `Action`: The mutex, its condvars and the ULTs; one operation.
* `system`: The mutex as a guarded transition system.
* `accesses`: The nodes an operation reads or writes, and whose they have to be.
-/

namespace Cmpth

namespace McsMutex

open DualMutex (Phase Waiter)

/-- What a ULT is doing. -/
inductive Pc (A C : Type*) where
  /-- It runs, with guards or without. -/
  | idle
  /-- Suspended in `lock`, with a node. -/
  | locking (p : A)
  /-- In `wait`, the slot pushed and the spinlock held; its callback is about to fill
      the slot. -/
  | entering (c : C) (p : A)
  /-- The slot is filled; the callback is about to drop the spinlock. -/
  | queued (c : C) (p : A)
  /-- Suspended in `wait`, the spinlock dropped. -/
  | waiting (c : C)
  /-- Back from the condvar's queue, and about to lock. -/
  | relock
  deriving DecidableEq, Repr

/-- What has become of a node's guard. -/
inductive Hold (T : Type*) where
  /-- There is none, or its drop has come past the compare and exchange. -/
  | none
  | live
  /-- It has been moved into the callback of a wait. -/
  | callback (t : T)
  /-- Its drop is about to compare and exchange `tail`. -/
  | dropping
  deriving DecidableEq, Repr

/-- Who has a condvar's spinlock. -/
inductive Holder (T J : Type*) where
  | wait (t : T)
  | notify (j : J)
  deriving DecidableEq, Repr

/-- Where a continuation is. -/
inductive Spot (C J : Type*) where
  /-- In a slot of a condvar's `waiters`. -/
  | condvar (c : C)
  /-- In a slot that a notify has popped. -/
  | popped (j : J)
  /-- Taken out of the slot and about to be pushed. -/
  | taken (j : J)
  | run
  deriving DecidableEq, Repr

/-- A call of `notify_one` or `notify_all`. -/
structure Notify (C : Type*) where
  /-- The condvar whose spinlock it holds. -/
  lock : Option C
  all : Bool
  deriving DecidableEq, Repr

/-- The mutex, its condvars and the ULTs. `ult` is who locks with a node, and
    `serial` the ticket that its swap has drawn; `acquired` are the tickets in the
    order their guards were returned. -/
structure State (T A C J : Type*) where
  chain : DualMutex.State A
  ult : A → T
  hold : A → Hold T
  pc : T → Pc A C
  tokens : Spot C J → List T
  spin : C → Option (Holder T J)
  call : J → Notify C
  serial : A → ℕ
  swaps : ℕ
  acquired : List ℕ

/-- The operations of ULTs, of callbacks and of notifies. -/
inductive Action (T A C J : Type*) where
  /-- `lock`: a fresh node and the swap of `tail`. -/
  | lock (t : T) (p : A)
  /-- The callback: fill the node's slot. -/
  | publish (p : A)
  /-- The callback: store the link. -/
  | link (p : A)
  | resume (t : T)
  /-- A guard goes out of scope. -/
  | drop (p : A)
  /-- `drop`: the compare and exchange of `tail`. -/
  | unlock (p : A)
  /-- `drop`: one load of `next`. -/
  | follow (p : A)
  /-- `drop`: `notify` takes the successor's slot. -/
  | take (p : A)
  /-- `drop`: what was taken is pushed, and the node is freed. -/
  | wake (p : A)
  /-- `wait`: acquire the spinlock, push the slot and suspend. -/
  | wait (t : T) (p : A) (c : C)
  /-- The callback: fill the slot. -/
  | fill (t : T)
  /-- The callback: drop the spinlock. -/
  | release (t : T)
  /-- `notify_one`: acquire the spinlock and pop a slot. -/
  | notifyOne (j : J) (c : C)
  /-- `notify_all`: acquire the spinlock and take the queue. -/
  | notifyAll (j : J) (c : C)
  /-- `notify`: take the next slot's continuation. -/
  | takeSlot (j : J)
  /-- `notify`: push it. -/
  | push (j : J)
  /-- Drop the spinlock. -/
  | unspin (j : J)
  deriving DecidableEq, Repr

section

variable {T A C J : Type*} [DecidableEq T] [DecidableEq A] [DecidableEq C] [DecidableEq J]

namespace State

/-- The guard of `p` is returned. -/
def acquire (s : State T A C J) (t : T) (p : A) : State T A C J :=
  { s with
    hold := Function.update s.hold p .live
    pc := Function.update s.pc t .idle
    acquired := s.acquired ++ [s.serial p] }

/-- A continuation is taken from the head of a list and put at the head of another. -/
def move (s : State T A C J) (x y : Spot C J) : State T A C J :=
  match s.tokens x with
  | [] => s
  | t :: rest =>
      { s with tokens := Function.update (Function.update s.tokens x rest) y (t :: s.tokens y) }

end State

/-- The call is in no notify. -/
def Idle (s : State T A C J) (j : J) : Prop :=
  (s.call j).lock = none ∧ s.tokens (.popped j) = [] ∧ s.tokens (.taken j) = []

/-- When an action is enabled. -/
def guard (s : State T A C J) : Action T A C J → Prop
  | .lock t p => (s.pc t = .idle ∨ s.pc t = .relock) ∧ (s.chain.node p).phase = .free
  | .publish p => (s.chain.node p).phase = .enqueued
  | .link p => (s.chain.node p).phase = .published
  | .resume t => t ∈ s.tokens .run
  | .drop p => s.hold p = .live
  | .unlock p => s.hold p = .dropping
  | .follow p => (s.chain.node p).phase = .following
  | .take p => (match (s.chain.node p).phase with
      | .notifying _ => true
      | _ => false) = true
  | .wake p => (match (s.chain.node p).phase with
      | .waking _ _ => true
      | _ => false) = true
  | .wait t p c => s.pc t = .idle ∧ s.hold p = .live ∧ s.spin c = none
  | .fill t => (match s.pc t with
      | .entering _ _ => true
      | _ => false) = true
  | .release t => (match s.pc t with
      | .queued _ _ => true
      | _ => false) = true
  | .notifyOne j c | .notifyAll j c => Idle s j ∧ s.spin c = none
  | .takeSlot j => s.tokens (.popped j) ≠ [] ∧ s.tokens (.taken j) = [] ∧
      ((s.call j).all = true → (s.call j).lock = none)
  | .push j => s.tokens (.taken j) ≠ []
  | .unspin j => (s.call j).lock ≠ none ∧ s.tokens (.taken j) = [] ∧
      ((s.call j).all = true ∨ s.tokens (.popped j) = [])

instance (s : State T A C J) (a : Action T A C J) : Decidable (guard s a) := by
  cases a <;> unfold guard <;> try unfold Idle
  all_goals infer_instance

/-- The state an action leads to. -/
def next (s : State T A C J) : Action T A C J → State T A C J
  | .lock t p =>
      let s1 := { s with
        chain := DualMutex.next s.chain (.startLock p .ult)
        ult := Function.update s.ult p t
        serial := Function.update s.serial p s.swaps
        swaps := s.swaps + 1 }
      match s.chain.tail with
      | none => s1.acquire t p
      | some _ => { s1 with pc := Function.update s.pc t (.locking p) }
  | .publish p => { s with chain := DualMutex.next s.chain (.publish p) }
  | .link p => { s with chain := DualMutex.next s.chain (.link p) }
  | .resume t =>
      let s1 := { s with tokens := Function.update s.tokens .run ((s.tokens .run).erase t) }
      match s.pc t with
      | .locking p => { s1.acquire t p with chain := DualMutex.next s.chain (.resume p) }
      | .waiting _ => { s1 with pc := Function.update s.pc t .relock }
      | _ => s1
  | .drop p => { s with hold := Function.update s.hold p .dropping }
  | .unlock p =>
      { s with
        chain := DualMutex.next s.chain (.unlock p)
        hold := Function.update s.hold p .none }
  | .follow p => { s with chain := DualMutex.next s.chain (.follow p) }
  | .take p => match (s.chain.node p).phase with
      | .notifying n => { s with chain := DualMutex.next s.chain (.take p n) }
      | _ => s
  | .wake p => match (s.chain.node p).phase with
      | .waking n w =>
          { s with
            chain := DualMutex.next s.chain (.wake p n w)
            tokens := Function.update s.tokens .run (s.ult n :: s.tokens .run) }
      | _ => s
  | .wait t p c =>
      { s with
        hold := Function.update s.hold p (.callback t)
        pc := Function.update s.pc t (.entering c p)
        spin := Function.update s.spin c (some (.wait t)) }
  | .fill t => match s.pc t with
      | .entering c p =>
          { s with
            tokens := Function.update s.tokens (.condvar c) (s.tokens (.condvar c) ++ [t])
            pc := Function.update s.pc t (.queued c p) }
      | _ => s
  | .release t => match s.pc t with
      | .queued c p =>
          { s with
            hold := Function.update s.hold p .dropping
            pc := Function.update s.pc t (.waiting c)
            spin := Function.update s.spin c none }
      | _ => s
  | .notifyOne j c =>
      { s.move (.condvar c) (.popped j) with
        call := Function.update s.call j { lock := some c, all := false }
        spin := Function.update s.spin c (some (.notify j)) }
  | .notifyAll j c =>
      { s with
        tokens := Function.update (Function.update s.tokens (.condvar c) []) (.popped j)
          (s.tokens (.condvar c) ++ s.tokens (.popped j))
        call := Function.update s.call j { lock := some c, all := true }
        spin := Function.update s.spin c (some (.notify j)) }
  | .takeSlot j => s.move (.popped j) (.taken j)
  | .push j => s.move (.taken j) .run
  | .unspin j => match (s.call j).lock with
      | some c =>
          { s with
            call := Function.update s.call j { s.call j with lock := none }
            spin := Function.update s.spin c none }
      | none => s

/-- The mutex as a guarded transition system. -/
def system : System (State T A C J) (Action T A C J) where
  init s := DualMutex.init s.chain ∧ (∀ p, s.hold p = .none) ∧ (∀ t, s.pc t = .idle) ∧
    (∀ x, s.tokens x = []) ∧ (∀ c, s.spin c = none) ∧ (∀ j, (s.call j).lock = none) ∧
    s.swaps = 0 ∧ s.acquired = []
  guard := guard
  next := next

instance (s : State T A C J) (a : Action T A C J) : Decidable ((system).guard s a) :=
  inferInstanceAs (Decidable (guard s a))

end

/-- The nodes an operation reads or writes, each with the ticket of the call whose
    node it has to be: the call before is the one whose ticket is one less, and the
    call behind has the next one. -/
def accesses {T A C J : Type*} (s : State T A C J) : Action T A C J → List (A × ℕ)
  | .publish p | .unlock p | .follow p | .wake p => [(p, s.serial p)]
  | .link p => match (s.chain.node p).prev with
      | some a => [(p, s.serial p), (a, s.serial p - 1)]
      | none => [(p, s.serial p)]
  | .take p => match (s.chain.node p).phase with
      | .notifying n => [(p, s.serial p), (n, s.serial p + 1)]
      | _ => [(p, s.serial p)]
  | _ => []

end McsMutex

end Cmpth

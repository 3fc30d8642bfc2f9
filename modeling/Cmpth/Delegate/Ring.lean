import Mathlib.Data.Nat.Bitwise
import Cmpth.Delegate.LockQueue

/-!
# `RingBufQueue`

The ring of `RingBufDelegator`: `N` slots, of which the claims take one after
the other, and one word that holds the number of claims and whether the lock is
free. Every atomic operation is a step, and so is what a caller or the holder
writes to a node.

`start_lock` is a loop around a compare and exchange, and between the loads it
decides by and the exchange everything may change. The holder's operations are
one at a time, whoever the holder is, so that what is in flight of them is part
of the state of the lock. The words do not wrap.

## Main definitions

* `State`, `Action`, `system`: The queue as a guarded transition system.
* `label`: The operation a step performs, and what it returns.
-/

namespace Cmpth

namespace Delegate

namespace RingBufQueue

/-- The low bit of `tail`: the lock is free. -/
def FREE : Nat := 1

/-- Where a caller is in `start_lock` and `set_next`. -/
inductive CallerPc where
  | idle
  /-- `tail` has been loaded. -/
  | loaded (tail : Nat)
  /-- The ring was not full, or the lock free. -/
  | checked (tail : Nat)
  /-- Has the lock; about to store its slot in `head`. -/
  | locked (idx : Nat)
  /-- Has to wait; about to fill in its node. -/
  | claimed (idx : Nat)
  /-- About to mark its slot ready. -/
  | filled (idx : Nat)
  deriving DecidableEq, Repr

/-- Where the holder is in its operation. -/
inductive HolderPc where
  /-- Nobody has been given the lock. -/
  | nobody
  /-- Between two operations. -/
  | holding
  /-- `try_unlock`: `head` has been loaded. -/
  | unlocking (head : Nat)
  /-- `try_follow_head`: `head` has been loaded. -/
  | following (head : Nat)
  /-- The successor's slot is ready; about to clear the flag. -/
  | found (head : Nat)
  /-- About to reset the old node. -/
  | cleared (head : Nat)
  /-- About to store the successor's slot in `head`. -/
  | reset (head : Nat)
  deriving DecidableEq, Repr

/-- `node` is the number of the claim whose caller has filled the node of a
    slot in. -/
structure State (K : Type*) where
  head : Nat
  tail : Nat
  ready : Nat → Bool
  node : Nat → Option Nat
  caller : K → CallerPc
  holder : HolderPc

/-- The accesses to `tail`, `head` and the slots, one at a time. -/
inductive Action (K : Type*) where
  /-- `start_lock`: the load of `tail`. -/
  | loadTail (k : K)
  /-- The check for a full ring, with its load of `head`. -/
  | loadHead (k : K)
  /-- The compare and exchange, which may fail for no reason. -/
  | exchange (k : K) (spurious : Bool)
  /-- The new holder stores its slot in `head`. -/
  | storeHead (k : K)
  /-- A caller fills in its node. -/
  | fill (k : K)
  /-- `set_next`. -/
  | setNext (k : K)
  /-- `try_unlock` begins. -/
  | unlock
  /-- `try_follow_head` begins. -/
  | follow
  /-- The holder's operation takes its next step. -/
  | holder
  deriving DecidableEq, Repr

variable {K : Type*}

/-- `idx & (N - 1)`. -/
def mask (n idx : Nat) : Nat :=
  idx &&& (n - 1)

section

variable [DecidableEq K]

/-- Put a caller in another place. -/
def State.setCaller (s : State K) (k : K) (pc : CallerPc) : State K :=
  { s with caller := Function.update s.caller k pc }

/-- The check for a full ring. The subtraction wraps, so that a ring that has
    moved on counts as full. -/
def State.checkFull (n : Nat) (s : State K) (k : K) (tail : Nat) : State K :=
  if tail &&& FREE = 0 ∧ (tail >>> 1 < s.head ∨ (tail >>> 1) - s.head ≥ n) then
    s.setCaller k .idle
  else s.setCaller k (.checked tail)

/-- The compare and exchange on `tail`: take the next slot, with the lock if it was free. -/
def State.exchange (s : State K) (k : K) (tail : Nat) (spurious : Bool) : State K :=
  if s.tail = tail ∧ spurious = false then
    { s with
      tail := ((tail >>> 1) + 1) <<< 1
      caller := Function.update s.caller k
        (if tail &&& FREE ≠ 0 then .locked (tail >>> 1) else .claimed (tail >>> 1)) }
  else s.setCaller k .idle

/-- The next step of the holder's operation. -/
def State.holderStep (n : Nat) (s : State K) : State K :=
  match s.holder with
  | .nobody | .holding => s
  | .unlocking head =>
      if s.tail = (head + 1) <<< 1 then
        { s with
          tail := s.tail ||| FREE
          holder := .nobody }
      else { s with holder := .holding }
  | .following head =>
      { s with holder := if s.ready (mask n (head + 1)) = true then .found head else .holding }
  | .found head =>
      { s with
        ready := Function.update s.ready (mask n (head + 1)) false
        holder := .cleared head }
  | .cleared head =>
      { s with
        node := Function.update s.node (mask n head) none
        holder := .reset head }
  | .reset head =>
      { s with
        head := head + 1
        holder := .holding }

/-- When an action can be taken: who takes it has come that far. -/
def guard (s : State K) : Action K → Prop
  | .loadTail k => s.caller k = .idle
  | .loadHead k => ∃ tail, s.caller k = .loaded tail
  | .exchange k _ => ∃ tail, s.caller k = .checked tail
  | .storeHead k => ∃ idx, s.caller k = .locked idx
  | .fill k => ∃ idx, s.caller k = .claimed idx
  | .setNext k => ∃ idx, s.caller k = .filled idx
  | .unlock | .follow => s.holder = .holding
  | .holder => s.holder ≠ .nobody ∧ s.holder ≠ .holding

/-- What an action does, with `n` slots. -/
def next (n : Nat) (s : State K) : Action K → State K
  | .loadTail k => s.setCaller k (.loaded s.tail)
  | .loadHead k =>
      match s.caller k with
      | .loaded tail => s.checkFull n k tail
      | _ => s
  | .exchange k spurious =>
      match s.caller k with
      | .checked tail => s.exchange k tail spurious
      | _ => s
  | .storeHead k =>
      match s.caller k with
      | .locked idx =>
          { s.setCaller k .idle with
            head := idx
            holder := .holding }
      | _ => s
  | .fill k =>
      match s.caller k with
      | .claimed idx =>
          { s.setCaller k (.filled idx) with
            node := Function.update s.node (mask n idx) (some idx) }
      | _ => s
  | .setNext k =>
      match s.caller k with
      | .filled idx =>
          { s.setCaller k .idle with ready := Function.update s.ready (mask n idx) true }
      | _ => s
  | .unlock => { s with holder := .unlocking s.head }
  | .follow => { s with holder := .following s.head }
  | .holder => s.holderStep n

/-- A new ring: the lock is free. -/
def init (s : State K) : Prop :=
  s.head = 0 ∧ s.tail = FREE ∧ (∀ i, s.ready i = false) ∧ (∀ i, s.node i = none) ∧
  (∀ k, s.caller k = .idle) ∧ s.holder = .nobody

/-- The queue as a guarded transition system. -/
def system (n : Nat) : System (State K) (Action K) where
  init := init
  guard := guard
  next := next n

end

/-- The operation a step performs, and what it returns. An operation takes
    place with the step that decides it. -/
def label (n : Nat) (s : State K) : Action K → Option (Op × Result)
  | .exchange k spurious =>
      match s.caller k with
      | .checked tail =>
          if s.tail = tail ∧ spurious = false then
            some (.startLock, .claimed (tail >>> 1) (tail &&& FREE != 0))
          else none
      | _ => none
  | .setNext k =>
      match s.caller k with
      | .filled idx => some (.setNext idx, .linked)
      | _ => none
  | .holder =>
      match s.holder with
      | .unlocking head => some (.tryUnlock, .unlocked (s.tail == (head + 1) <<< 1))
      | .following head =>
          if s.ready (mask n (head + 1)) = true then none
          else some (.tryFollowHead, .follows none)
      | .reset head => some (.tryFollowHead, .follows (s.node (mask n (head + 1))))
      | _ => none
  | .loadTail _ | .loadHead _ | .storeHead _ | .fill _ | .unlock | .follow => none

section

-- The proofs take these apart in parallel: their equations are made here, once.
attribute [local simp] next label

end

end RingBufQueue

end Delegate

end Cmpth

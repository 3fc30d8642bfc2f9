import Mathlib.Logic.Function.Basic
import Mathlib.Tactic.Common
import Cmpth.Core.System

/-!
# A Lock With a Queue

What the queue of a delegator is for: a lock whose callers are served in the
order they come. The claims are numbered, and `served` is the number of the
holder's. A caller that does not find the lock free links itself behind its
predecessor some time after its claim, and the holder can move on to it only
then.

This is the purpose of the queue, stated without one: no nodes, no slots and no
pointers. `McsQueue` and `RingBufQueue` are compared with it.

## Main definitions

* `LockQueue`: The lock.
* `Op`, `LockQueue.allowed`: Its operations, and when the protocol has them.
* `LockQueue.result`, `LockQueue.after`: What an operation returns and does.
* `LockQueue.results`: What a list of operations returns.
* `LockQueue.Implements`: A system whose steps perform operations of the lock.
* `trace`: The operations a run performs, with what they return.

## Theorems

* `LockQueue.Ok.after`: Nobody links himself who has not claimed.
* `LockQueue.holders_results`: The claims hold the lock in their order.
* `LockQueue.Implements.results_eq`: A system that implements the lock returns
  what the lock does.
* `ok_new`, `holder_result`: A new lock, and whom an operation hands the lock to.
-/

namespace Cmpth

namespace Delegate

/-- The lock. It is free when all claims have been served. -/
structure LockQueue where
  served : Nat
  claimed : Nat
  linked : Nat → Bool

/-- The operations of the queue, by the numbers of the claims. -/
inductive Op where
  | startLock
  | setNext (i : Nat)
  | tryFollowHead
  | tryUnlock
  deriving DecidableEq, Repr

/-- What an operation returns. -/
inductive Result where
  /-- `start_lock`: the number of the claim, and whether it has the lock. -/
  | claimed (i : Nat) (locked : Bool)
  | linked
  /-- `try_follow_head`: the claim that is next. -/
  | follows (i : Option Nat)
  | unlocked (ok : Bool)
  deriving DecidableEq, Repr

namespace LockQueue

/-- The lock when nobody has asked for it. -/
def new : LockQueue where
  served := 0
  claimed := 0
  linked _ := false

/-- The successor of the holder has linked itself. -/
def HasNext (q : LockQueue) : Prop :=
  q.served + 1 < q.claimed ∧ q.linked (q.served + 1) = true

instance (q : LockQueue) : Decidable q.HasNext :=
  inferInstanceAs (Decidable (_ ∧ _))

/-- The protocol: whoever waits links himself once, and only the holder moves
    on or unlocks. -/
def allowed (q : LockQueue) : Op → Prop
  | .startLock => True
  | .setNext i => q.served < i ∧ i < q.claimed ∧ q.linked i = false
  | .tryFollowHead | .tryUnlock => q.served < q.claimed

/-- What an operation returns. -/
def result (q : LockQueue) : Op → Result
  | .startLock => .claimed q.claimed (q.served == q.claimed)
  | .setNext _ => .linked
  | .tryFollowHead => .follows (if q.HasNext then some (q.served + 1) else none)
  | .tryUnlock => .unlocked (q.served + 1 == q.claimed)

/-- The lock after an operation. -/
def after (q : LockQueue) : Op → LockQueue
  | .startLock => { q with claimed := q.claimed + 1 }
  | .setNext i => { q with linked := Function.update q.linked i true }
  | .tryFollowHead => if q.HasNext then { q with served := q.served + 1 } else q
  | .tryUnlock => if q.served + 1 = q.claimed then { q with served := q.claimed } else q

/-- Nobody is served or linked who has not claimed. -/
structure Ok (q : LockQueue) : Prop where
  served : q.served ≤ q.claimed
  linked : ∀ i, q.claimed ≤ i → q.linked i = false

theorem ok_new : new.Ok :=
  ⟨Nat.le_refl _, fun _ _ => rfl⟩

theorem Ok.after {q : LockQueue} (h : q.Ok) {o : Op} (ha : q.allowed o) : (q.after o).Ok := by
  cases o with
  | startLock =>
      refine ⟨Nat.le_succ_of_le h.served, fun i hi => h.linked i ?_⟩
      exact Nat.le_of_succ_le hi
  | setNext i =>
      refine ⟨h.served, fun j hj => ?_⟩
      have hne : j ≠ i := by
        rintro rfl
        exact absurd ha.2.1 (Nat.not_lt.mpr hj)
      change Function.update q.linked i true j = false
      rw [Function.update_of_ne hne]
      exact h.linked j hj
  | tryFollowHead =>
      unfold LockQueue.after
      dsimp only
      split
      · next hn => exact ⟨Nat.le_of_succ_le hn.1, h.linked⟩
      · exact h
  | tryUnlock =>
      unfold LockQueue.after
      dsimp only
      split
      · exact ⟨Nat.le_refl _, h.linked⟩
      · exact h

/-- What a list of operations returns. -/
def results (q : LockQueue) : List Op → List Result
  | [] => []
  | o :: os => q.result o :: (q.after o).results os

/-- The lock after a list of operations. -/
def afterAll (q : LockQueue) : List Op → LockQueue
  | [] => q
  | o :: os => (q.after o).afterAll os

/-- The protocol has every operation of the list where it comes. -/
def allowedAll (q : LockQueue) : List Op → Prop
  | [] => True
  | o :: os => q.allowed o ∧ (q.after o).allowedAll os

/-- The claim that comes to hold the lock, if one does. -/
def holder : Result → Option Nat
  | .claimed i true => some i
  | .follows i => i
  | .claimed _ false | .linked | .unlocked _ => none

/-- The claim that is to hold the lock next. -/
def nextHolder (q : LockQueue) : Nat :=
  if q.served < q.claimed then q.served + 1 else q.claimed

/-- Each operation hands the lock to the next claim or to nobody. -/
theorem holder_result (q : LockQueue) (h : q.Ok) {o : Op} (ha : q.allowed o) :
    holder (q.result o) = some q.nextHolder ∧ (q.after o).nextHolder = q.nextHolder + 1 ∨
      holder (q.result o) = none ∧ (q.after o).nextHolder = q.nextHolder := by
  have hle := h.served
  -- Only a claim of an empty queue and a follow that succeeds hand the lock on.
  cases o with
  | startLock =>
      unfold nextHolder result after
      by_cases hq : q.served = q.claimed
      · left
        simp [holder, hq]
      · right
        have hlt : q.served < q.claimed := by omega
        have hlt' : q.served < q.claimed + 1 := by omega
        simp only [beq_eq_false_iff_ne.mpr hq, if_pos hlt, if_pos hlt', holder, and_self]
  | setNext i => exact .inr ⟨rfl, rfl⟩
  | tryFollowHead =>
      have hq : q.served < q.claimed := ha
      unfold nextHolder result after
      by_cases hn : q.HasNext
      · left
        have hlt := hn.1
        simp only [if_pos hn, if_pos hq, if_pos hlt, holder, and_self]
      · right
        simp only [if_neg hn, holder, and_self]
  | tryUnlock =>
      have hq : q.served < q.claimed := ha
      unfold nextHolder result after
      right
      by_cases hl : q.served + 1 = q.claimed
      · rw [if_pos hl, if_pos hq, if_neg (Nat.lt_irrefl _)]
        exact ⟨rfl, hl.symm⟩
      · simp only [if_neg hl, holder, and_self]

/-- The claims come to hold the lock in their order, none is left out. -/
theorem holders_results (os : List Op) (q : LockQueue) (h : q.Ok) (ha : q.allowedAll os) :
    ∃ n, (q.results os).filterMap holder = List.range' q.nextHolder n := by
  induction os generalizing q with
  | nil => exact ⟨0, rfl⟩
  | cons o os ih =>
      rcases ih (q.after o) (h.after ha.1) ha.2 with ⟨n, hn⟩
      rcases q.holder_result h ha.1 with ⟨hr, hnext⟩ | ⟨hr, hnext⟩
      · refine ⟨n + 1, ?_⟩
        rw [results, List.filterMap_cons_some hr, hn, hnext]
        rfl
      · refine ⟨n, ?_⟩
        rw [results, List.filterMap_cons_none hr, hn, hnext]

end LockQueue

section

variable {σ α : Type*}

/-- The operations a run performs, with what they return. `label` tells the
    steps that perform one. -/
def trace (M : System σ α) (label : σ → α → Option (Op × Result)) : σ → List α →
    List (Op × Result)
  | _, [] => []
  | s, a :: as => (label s a).toList ++ trace M label (M.next s a) as

/-- The states stand for those of the lock, and a step performs an operation or
    does nothing to it. -/
structure LockQueue.Implements (M : System σ α) (label : σ → α → Option (Op × Result))
    (R : σ → LockQueue → Prop) : Prop where
  init : ∀ s, M.init s → R s .new
  step : ∀ s q a, R s q → M.guard s a →
    (label s a = none ∧ R (M.next s a) q) ∨
    ∃ o, label s a = some (o, q.result o) ∧ q.allowed o ∧ R (M.next s a) (q.after o)

/-- A run returns what the operations it performs do. -/
theorem LockQueue.Implements.results_eq {M : System σ α}
    {label : σ → α → Option (Op × Result)} {R : σ → LockQueue → Prop}
    (h : LockQueue.Implements M label R) (as : List α) (s : σ) (q : LockQueue) (hr : R s q)
    (hl : M.Legal s as) :
    (trace M label s as).map Prod.snd = q.results ((trace M label s as).map Prod.fst) ∧
      q.allowedAll ((trace M label s as).map Prod.fst) ∧
      R (M.run s as) (q.afterAll ((trace M label s as).map Prod.fst)) := by
  induction as generalizing s q with
  | nil => exact ⟨rfl, trivial, hr⟩
  | cons a as ih =>
      rcases h.step s q a hr hl.1 with ⟨hnone, hr'⟩ | ⟨o, hsome, ha, hr'⟩
      · rw [trace, hnone]
        exact ih _ q hr' hl.2
      · rcases ih _ _ hr' hl.2 with ⟨hres, hall, hend⟩
        rw [trace, hsome]
        refine ⟨?_, ⟨ha, hall⟩, hend⟩
        exact congrArg (q.result o :: ·) hres

end

end Delegate

end Cmpth

import Mathlib.Data.Fintype.Basic

/-!
# Calls and Consumers

What a delegator knows of its consumer. A request is finished when it is run, or
it is deferred: the consumer keeps the call, completes it at any time, and hands
it back from `progress` later.

The consumer is whatever answers honestly: it is active until it has handed back
every call it has deferred, and it hands back calls that are completed.

## Main definitions

* `Kept`: What the consumer has of a call.
* `Answers`: What the consumer answers.
* `Answers.Honest`: What a delegator relies on.

## Theorems

* `Answers.Honest.idle`: An inactive consumer has no deferred call.
-/

namespace Cmpth

namespace Delegate

/-- What the consumer has of a call. -/
inductive Kept where
  | nothing
  /-- Deferred, and not completed. -/
  | deferred
  /-- Completed, and not handed back. -/
  | completed
  deriving DecidableEq, Repr

/-- What the consumer answers when it is asked: whether it is active, the call
    that `progress` hands back, and the response if `execute` is ready. -/
structure Answers (K Resp : Type*) where
  active : Bool
  progress : Option K
  execute : Option Resp
  deriving DecidableEq, Repr

variable {K Resp : Type*}

/-- The consumer is active until it has handed back every call it has deferred,
    and hands back those it has completed. -/
def Answers.Honest (a : Answers K Resp) (kept : K → Kept) : Prop :=
  ((∃ k, kept k ≠ .nothing) → a.active = true) ∧
    ∀ k, a.progress = some k → kept k = .completed

instance [Fintype K] [DecidableEq K] (a : Answers K Resp) (kept : K → Kept) :
    Decidable (a.Honest kept) :=
  inferInstanceAs (Decidable (_ ∧ _))

/-- An inactive consumer has no deferred call. -/
theorem Answers.Honest.idle {a : Answers K Resp} {kept : K → Kept} (h : a.Honest kept)
    (ha : a.active = false) (k : K) : kept k = .nothing := by
  by_contra hk
  rw [h.1 ⟨k, hk⟩] at ha
  cases ha

end Delegate

end Cmpth

import Mathlib.Tactic.Common

/-!
# The Wake Word

The state word shared by an async task's poll loop and its wakers, and what
one round of each compare-and-exchange loop of `common::waker` computes from
the value it loaded.

Bits 0 and 1 hold the state and bit 63 the sticky `EVER_SHARED` hint. Every
loop replaces one of the two and keeps the other, and none touches a bit in
between. The lemmas say so once, after which the protocol is about the four
states only (`WakeState`).

## Main definitions

* `state`, `withState`: The state bits, read and replaced.
* `share`: What `note_waker_shared` stores.
* `parkTry`: One round of `park_after_poll`.
* `wakeTry`: One round of `try_wake_state`.
* `WakeState`, `decode`: The state a word stands for.

## Theorems

* `state_withState`: Replacing the state bits sets the state.
* `state_share`: Marking the waker shared does not.
* `state_cases`: There are four states.
* `decode_eq_notified`, `decode_share`, `decode_withState`: What a word that was stored to decodes
  to.
* `decode_parkTry`, `decode_wakeTry`: What the two loops do, by state.
-/

namespace Cmpth

namespace Waker

/-- The contents of an `AtomicUsize`. -/
abbrev Word := BitVec 64

/-- The task is queued, or being run without a poll. -/
def idle : Word := 0
/-- A pass is polling the task. -/
def polling : Word := 1
/-- The task waits for a wake. -/
def parked : Word := 2
/-- A wake has come during the poll. -/
def notified : Word := 3
/-- The flag of a task whose waker has been cloned. -/
def everShared : Word := 1 <<< 63
/-- The bits of the state. -/
def stateMask : Word := 3

/-- `refs & STATE_MASK`. -/
def state (refs : Word) : Word :=
  refs &&& stateMask

/-- `(refs & !STATE_MASK) | s`. -/
def withState (refs s : Word) : Word :=
  (refs &&& ~~~stateMask) ||| s

/-- `EVER_SHARED | (old & STATE_MASK)`. -/
def share (old : Word) : Word :=
  everShared ||| (old &&& stateMask)

/-- `is_waker_shared`. -/
def isShared (refs : Word) : Bool :=
  decide (refs &&& everShared ≠ 0)

/-- One round of `park_after_poll` after loading `refs`: the value to exchange
    for it, and what to return if that succeeds. -/
def parkTry (refs : Word) : Word × Bool :=
  if state refs = notified then (withState refs polling, false)
  else (withState refs parked, true)

/-- `WakeOutcome`. -/
inductive WakeOutcome where
  | setNotified
  | claimedParked
  | noOp
  deriving DecidableEq, Repr

/-- One round of `try_wake_state` after loading `refs`: exchange it for a new
    value, or return at once. -/
inductive WakeTry where
  | exchange (new : Word) (out : WakeOutcome)
  | done (out : WakeOutcome)
  | unreachable
  deriving DecidableEq, Repr

/-- One round of `try_wake_state`: the exchange it is to make, or that there is none. -/
def wakeTry (refs : Word) : WakeTry :=
  if state refs = polling then .exchange (withState refs notified) .setNotified
  else if state refs = parked then .exchange (withState refs polling) .claimedParked
  else if state refs = notified then .done .noOp
  else if state refs = idle then .done .noOp
  else .unreachable

@[simp] theorem state_withState (refs s : Word) (hs : state s = s) :
    state (withState refs s) = s := by
  rw [← hs]
  simp only [state, withState]
  ext i hi
  simp only [BitVec.getElem_and, BitVec.getElem_or, BitVec.getElem_not]
  cases refs[i] <;> cases s[i] <;> cases stateMask[i] <;> rfl

theorem state_share (old : Word) : state (share old) = state old := by
  have hbit : everShared &&& stateMask = 0 := by decide
  ext i hi
  have hb : (everShared[i] && stateMask[i]) = false := by
    rw [← BitVec.getElem_and, hbit]
    exact BitVec.getElem_zero hi
  simp only [state, share, BitVec.getElem_and, BitVec.getElem_or]
  cases old[i] <;> simp_all

theorem state_cases (refs : Word) :
    state refs = idle ∨ state refs = polling ∨ state refs = parked ∨ state refs = notified := by
  have hlt : (state refs).toNat < 4 := by
    have hle : (state refs).toNat ≤ stateMask.toNat := by
      simp only [state, BitVec.toNat_and]
      exact Nat.and_le_right
    have hmask : stateMask.toNat = 3 := by decide
    omega
  generalize state refs = s at hlt
  have h : s.toNat = 0 ∨ s.toNat = 1 ∨ s.toNat = 2 ∨ s.toNat = 3 := by omega
  rcases h with h | h | h | h
  · exact Or.inl (BitVec.eq_of_toNat_eq h)
  · exact Or.inr (Or.inl (BitVec.eq_of_toNat_eq h))
  · exact Or.inr (Or.inr (Or.inl (BitVec.eq_of_toNat_eq h)))
  · exact Or.inr (Or.inr (Or.inr (BitVec.eq_of_toNat_eq h)))

/-- The four states of the word. -/
inductive WakeState where
  | idle
  | polling
  | parked
  | notified
  deriving DecidableEq, Repr

/-- The state a word stands for. -/
def decode (refs : Word) : WakeState :=
  if state refs = polling then .polling
  else if state refs = parked then .parked
  else if state refs = notified then .notified
  else .idle

theorem decode_eq_notified (refs : Word) : decode refs = .notified ↔ state refs = notified := by
  unfold decode
  rcases state_cases refs with h | h | h | h
  all_goals
    rw [h]
    decide

theorem decode_share (old : Word) : decode (share old) = decode old := by
  simp only [decode, state_share]

theorem decode_withState (refs s : Word) (hs : state s = s) :
    decode (withState refs s) = decode s := by
  simp only [decode, state_withState refs s hs, hs]

/-- What `park_after_poll` exchanges: a notified word for a polling one, any
    other for a parked one. -/
theorem decode_parkTry (refs : Word) :
    (decode refs = .notified ∧ decode (parkTry refs).1 = .polling ∧ (parkTry refs).2 = false) ∨
      (decode refs ≠ .notified ∧ decode (parkTry refs).1 = .parked ∧
        (parkTry refs).2 = true) := by
  unfold parkTry
  by_cases h : state refs = notified
  · rw [if_pos h]
    exact Or.inl ⟨(decode_eq_notified refs).mpr h, decode_withState refs polling (by decide), rfl⟩
  · rw [if_neg h]
    refine Or.inr ⟨fun hn => h ((decode_eq_notified refs).mp hn), ?_, rfl⟩
    exact decode_withState refs parked (by decide)

/-- What `try_wake_state` does: notify a polling task, claim a parked one, and
    leave the others alone. Its last arm is never taken. -/
theorem decode_wakeTry (refs : Word) :
    (decode refs = .polling ∧ ∃ new, wakeTry refs = .exchange new .setNotified ∧
        decode new = .notified) ∨
      (decode refs = .parked ∧ ∃ new, wakeTry refs = .exchange new .claimedParked ∧
        decode new = .polling) ∨
      ((decode refs = .notified ∨ decode refs = .idle) ∧ wakeTry refs = .done .noOp) := by
  unfold wakeTry
  -- The word is in one of the four states.
  rcases state_cases refs with h | h | h | h
  · refine Or.inr (Or.inr ⟨Or.inr ?_, ?_⟩)
    · simp only [decode, h]
      decide
    · rw [h]
      rfl
  · refine Or.inl ⟨?_, withState refs notified, ?_, decode_withState refs notified (by decide)⟩
    · simp only [decode, h]
      decide
    · rw [if_pos h]
  · refine Or.inr (Or.inl
      ⟨?_, withState refs polling, ?_, decode_withState refs polling (by decide)⟩)
    · simp only [decode, h]
      decide
    · rw [h]
      rfl
  · refine Or.inr (Or.inr ⟨Or.inl ?_, ?_⟩)
    · simp only [decode, h]
      decide
    · rw [h]
      rfl

end Waker

end Cmpth

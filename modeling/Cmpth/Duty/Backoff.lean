import Mathlib.Order.MinMax
import Mathlib.Order.Nat
import Cmpth.Duty.Registry

/-!
# The Period of a Duty

One duty through registrations, runs, touches and changes of its period, one operation
at a time, with a clock that does not go back.

A poll that does nothing is counted, and each time the count is full the period doubles,
up to its maximum; so after a number of such polls it has doubled as often as the count
was full. Everything else sets it to the minimum. The bounds may change under a period
that has backed off, but are changed together with it.

## Main definitions

* `State`, `Action`, `system`: A duty and the clock.
* `Law`: What is promised between operations, and of the next ones.
* `Saturates`: The due times do not come round.

## Theorems

* `bounds_le`: The bounds are in order, and no later than `NEVER`.
* `inv_registered`, `inv_run`, `inv_touch`: Registering, a run and a touch keep the period within
  its bounds.
* `inv_next`: The period stays within its bounds.
* `doubled`: A full count doubles the period, up to the maximum.
* `run_idle`: A fruitless poll, where the period may back off: it counts, and the one that fills the
  count doubles the period.
* `run_bounds`: A run keeps the bounds.
* `idle_run`: Polls that do nothing, as many as there may be.
* `fixed_run`: Where the bounds are equal, nothing is counted and nothing doubles.
* `wrappingSub_eq`: With times that do not go back, the difference does not come round.
* `stale_iff`: When a touch finds the duty stale.
* `Inv.law`: The bounds give the law.
* `saturates_due`, `saturates_halfDue`: The due times do not come round.
* `law_reachable`: The law holds in every state.
* `law_backedOff`: A duty that has backed off.
-/

namespace Cmpth

namespace Duty

namespace Backoff

/-- A duty, and the time of the last operation on it. -/
structure State where
  inner : Inner
  clock : ℕ
  deriving DecidableEq, Repr

/-- An operation, with the reading of the clock it takes. -/
inductive Action where
  | run (did : Bool) (now : ℕ)
  | touch (now : ℕ)
  | setPeriod (period : Option (ℕ × ℕ))
  deriving DecidableEq, Repr

/-- `run`: the deadline, the poll, the time and the period. -/
def run (i : Inner) (did : Bool) (now : ℕ) : Inner :=
  { i with
    deadline := NEVER
    last := now }.finishRun did i.minPeriod i.maxPeriod

/-- `touch`. -/
def touch (i : Inner) (now : ℕ) : Inner :=
  if i.stale now then { i with last := now }.resetPeriod i.minPeriod else i

/-- `set_period`. -/
def setPeriod (i : Inner) (period : Option (ℕ × ℕ)) : Inner :=
  { i with
    minPeriod := (bounds period).1
    maxPeriod := (bounds period).2
    period := (bounds period).1
    idlePolls := 0 }

/-- Times are 64-bit and do not decrease. -/
def guard (s : State) : Action → Prop
  | .run _ now | .touch now => s.clock ≤ now ∧ now ≤ NEVER
  | .setPeriod _ => True

/-- What an operation stores, and when. -/
def next (s : State) : Action → State
  | .run did now => ⟨run s.inner did now, now⟩
  | .touch now => ⟨touch s.inner now, now⟩
  | .setPeriod period => ⟨setPeriod s.inner period, s.clock⟩

/-- `register`, as `DutyRegistry::duty` and `on_demand` call it. -/
def registered (place : DutyPlace) (period : Option (ℕ × ℕ)) (waitPeriod now : ℕ) : State :=
  ⟨newInner place now period waitPeriod, now⟩

/-- A duty as a guarded transition system. -/
def system : System State Action where
  init s := ∃ place period waitPeriod now, now ≤ NEVER ∧
    s = registered place period waitPeriod now
  guard := guard
  next := next

instance (s : State) (a : Action) : Decidable (system.guard s a) :=
  match a with
  | .run _ now => inferInstanceAs (Decidable (s.clock ≤ now ∧ now ≤ NEVER))
  | .touch now => inferInstanceAs (Decidable (s.clock ≤ now ∧ now ≤ NEVER))
  | .setPeriod _ => isTrue trivial

/-- Polls that do nothing, at the given times. -/
def fruitless (nows : List ℕ) : List Action :=
  nows.map (.run false)

/-- The period is between its bounds. Starting from the minimum with no idle polls, it
    doubles with every `IDLE_POLLS` fruitless ones up to the maximum. A poll that did
    something sets it to the minimum, and so does a touch more than a quarter of the
    shorter period after the last poll or touch, which is one that is stored. -/
structure Law (s : State) : Prop where
  within : s.inner.minPeriod ≤ s.inner.period ∧ s.inner.period ≤ s.inner.maxPeriod
  doubles : s.inner.period = s.inner.minPeriod → s.inner.idlePolls = 0 → ∀ k nows,
    nows.length = k * IDLE_POLLS → system.Legal s (fruitless nows) →
    (system.run s (fruitless nows)).inner.period =
      min (s.inner.minPeriod * 2 ^ k) s.inner.maxPeriod
  resets : ∀ now, system.guard s (.run true now) →
    (system.next s (.run true now)).inner.period = s.inner.minPeriod
  touches : ∀ now, system.guard s (.touch now) →
    s.inner.last + min s.inner.minPeriod s.inner.waitPeriod / 4 < now →
    (system.next s (.touch now)).inner.last = now ∧
      (system.next s (.touch now)).inner.period = s.inner.minPeriod
  skips : ∀ now, system.guard s (.touch now) →
    now ≤ s.inner.last + min s.inner.minPeriod s.inner.waitPeriod / 4 →
    (system.next s (.touch now)).inner = s.inner

/-- The gap is added to the last time, or the sum is `NEVER`, and the deadline may come
    before that. -/
def Saturates (last gap deadline time : ℕ) : Prop :=
  time = min (if last + gap ≤ NEVER then last + gap else NEVER) deadline

/-- How long after the last time an idle worker may run it. -/
def halfGap (i : Inner) : ℕ :=
  if i.waiters ≠ 0 then EAGER_NS else i.effectivePeriod / 2

/-- The invariant: the count is never full, and times are not ahead of the clock. -/
structure Inv (s : State) : Prop where
  lower : s.inner.minPeriod ≤ s.inner.period
  upper : s.inner.period ≤ s.inner.maxPeriod
  never : s.inner.maxPeriod ≤ NEVER
  idle : s.inner.idlePolls < IDLE_POLLS
  past : s.inner.last ≤ s.clock
  clock : s.clock ≤ NEVER

section

variable {s : State} {i : Inner} {now : ℕ} {did : Bool}

theorem idlePolls_pos : 0 < IDLE_POLLS := by
  decide

theorem bounds_le (period : Option (ℕ × ℕ)) :
    (bounds period).1 ≤ (bounds period).2 ∧ (bounds period).2 ≤ NEVER := by
  cases period with
  | none => exact ⟨le_rfl, le_rfl⟩
  | some p =>
      simp only [bounds, ns, NEVER]
      omega

theorem inv_registered (place : DutyPlace) (period : Option (ℕ × ℕ)) (waitPeriod : ℕ)
    (hnow : now ≤ NEVER) : Inv (registered place period waitPeriod now) where
  lower := le_rfl
  upper := (bounds_le period).1
  never := (bounds_le period).2
  idle := idlePolls_pos
  past := le_rfl
  clock := hnow

theorem inv_run (h : Inv s) (hnow : now ≤ NEVER) : Inv (next s (.run did now)) := by
  have hlower := h.lower
  have hupper := h.upper
  have hnever := h.never
  have hidle := h.idle
  simp only [next, run, Inner.finishRun]
  split
  · exact ⟨le_rfl, le_trans hlower hupper, hnever, idlePolls_pos, le_rfl, hnow⟩
  · split
    · split
      · -- The count is full.
        refine ⟨?_, min_le_right _ _, hnever, idlePolls_pos, le_rfl, hnow⟩
        simp only [saturatingMul, NEVER] at hnever ⊢
        omega
      · exact ⟨hlower, hupper, hnever, by simp only; omega, le_rfl, hnow⟩
    · exact ⟨hlower, hupper, hnever, hidle, le_rfl, hnow⟩

theorem inv_touch (h : Inv s) (hg : s.clock ≤ now ∧ now ≤ NEVER) : Inv (next s (.touch now)) := by
  simp only [next, touch]
  split
  · unfold Inner.resetPeriod
    split
    · exact ⟨le_rfl, le_trans h.lower h.upper, h.never, idlePolls_pos, le_rfl, hg.2⟩
    · exact ⟨h.lower, h.upper, h.never, h.idle, le_rfl, hg.2⟩
  · exact ⟨h.lower, h.upper, h.never, h.idle, le_trans h.past hg.1, hg.2⟩

theorem inv_next {a : Action} (h : Inv s) (hg : system.guard s a) : Inv (system.next s a) := by
  cases a with
  | run did now => exact inv_run h hg.2
  | touch now => exact inv_touch h hg
  | setPeriod period =>
      exact ⟨le_rfl, (bounds_le period).1, (bounds_le period).2, idlePolls_pos, h.past,
        h.clock⟩

/-- A full count doubles the period, and the maximum is not exceeded. -/
theorem doubled {p low high : ℕ} (k : ℕ) (hp : p = min (low * 2 ^ k) high) (hh : high ≤ NEVER) :
    min (saturatingMul p 2) high = min (low * 2 ^ (k + 1)) high := by
  rw [Nat.pow_succ, ← Nat.mul_assoc]
  generalize low * 2 ^ k = x at hp
  unfold saturatingMul
  omega

/-- A fruitless poll, where the period may back off: it counts, and the one that fills the
    count doubles the period. -/
theorem run_idle (hmax : i.minPeriod < i.maxPeriod) (hnever : i.maxPeriod ≤ NEVER)
    (hidle : i.idlePolls < IDLE_POLLS) {k : ℕ}
    (hp : i.period = min (i.minPeriod * 2 ^ k) i.maxPeriod) :
    (run i false now).period =
        min (i.minPeriod * 2 ^ (k + (i.idlePolls + 1) / IDLE_POLLS)) i.maxPeriod ∧
      (run i false now).idlePolls = (i.idlePolls + 1) % IDLE_POLLS := by
  simp only [run, Inner.finishRun, Bool.false_eq_true, if_false, gt_iff_lt, hmax, if_true]
  split
  · next hfull =>
      have heq : i.idlePolls + 1 = IDLE_POLLS := by omega
      rw [heq]
      exact ⟨doubled k hp hnever, rfl⟩
  · next hfull =>
      rw [Nat.div_eq_of_lt (by omega), Nat.mod_eq_of_lt (by omega)]
      exact ⟨hp, rfl⟩

theorem run_bounds : (run i did now).minPeriod = i.minPeriod ∧
    (run i did now).maxPeriod = i.maxPeriod := by
  simp only [run, Inner.finishRun]
  split
  · exact ⟨rfl, rfl⟩
  · split
    · split <;> exact ⟨rfl, rfl⟩
    · exact ⟨rfl, rfl⟩

/-- Fruitless polls one after another: the count goes on, and the period has doubled as
    often as the count was full. -/
theorem idle_run {low high : ℕ} (hmax : low < high) (hnever : high ≤ NEVER) (nows : List ℕ) :
    ∀ (s : State) (k : ℕ), s.inner.minPeriod = low → s.inner.maxPeriod = high →
      s.inner.idlePolls < IDLE_POLLS → s.inner.period = min (low * 2 ^ k) high →
      (system.run s (fruitless nows)).inner.period =
        min (low * 2 ^ (k + (s.inner.idlePolls + nows.length) / IDLE_POLLS)) high := by
  induction nows with
  | nil =>
      intro s k _ _ hidle hp
      rw [show s.inner.idlePolls + ([] : List ℕ).length = s.inner.idlePolls from rfl,
        Nat.div_eq_of_lt hidle]
      exact hp
  | cons now nows ih =>
      intro s k hlow hhigh hidle hp
      subst hlow hhigh
      have hone : (run s.inner false now).period = _ ∧ (run s.inner false now).idlePolls = _ :=
        run_idle hmax hnever hidle hp
      have hb : (run s.inner false now).minPeriod = _ ∧ (run s.inner false now).maxPeriod = _ :=
        run_bounds
      have hrest := ih (system.next s (.run false now)) _ hb.1 hb.2
        (by
          change (run s.inner false now).idlePolls < _
          rw [hone.2]
          exact Nat.mod_lt _ idlePolls_pos) hone.1
      change (system.run (system.next s (.run false now)) (fruitless nows)).inner.period = _
      rw [hrest]
      change min (_ * 2 ^ (_ + ((run s.inner false now).idlePolls + nows.length) / _)) _ = _
      -- Whole counts so far, and the whole counts still to come.
      have hsum : (s.inner.idlePolls + 1) / IDLE_POLLS +
          ((s.inner.idlePolls + 1) % IDLE_POLLS + nows.length) / IDLE_POLLS =
            (s.inner.idlePolls + (nows.length + 1)) / IDLE_POLLS := by
        simp only [IDLE_POLLS]
        omega
      rw [hone.2, Nat.add_assoc, hsum]
      rfl

/-- Where the bounds are equal, nothing is counted and nothing doubles. -/
theorem fixed_run (nows : List ℕ) : ∀ s : State, s.inner.maxPeriod = s.inner.minPeriod →
    (system.run s (fruitless nows)).inner.period = s.inner.period := by
  induction nows with
  | nil => exact fun s _ => rfl
  | cons now nows ih =>
      intro s heq
      have hb : (run s.inner false now).minPeriod = _ ∧ (run s.inner false now).maxPeriod = _ :=
        run_bounds
      have hsame : (run s.inner false now).period = s.inner.period := by
        simp [run, Inner.finishRun, heq]
      have hrest := ih (system.next s (.run false now)) (by
        change (run s.inner false now).maxPeriod = (run s.inner false now).minPeriod
        rw [hb.1, hb.2, heq])
      exact hrest.trans hsame

/-- With times that do not go back, the difference does not come round. -/
theorem wrappingSub_eq {last : ℕ} (hpast : last ≤ now) (hnow : now ≤ NEVER) :
    wrappingSub now last = now - last := by
  unfold wrappingSub
  simp only [NEVER] at hnow
  omega

theorem stale_iff (h : Inv s) (hg : s.clock ≤ now ∧ now ≤ NEVER) :
    s.inner.stale now ↔
      s.inner.last + min s.inner.minPeriod s.inner.waitPeriod / 4 < now := by
  unfold Inner.stale
  rw [wrappingSub_eq (le_trans h.past hg.1) hg.2]
  omega

theorem Inv.law (h : Inv s) : Law s where
  within := ⟨h.lower, h.upper⟩
  doubles := by
    intro hmin hidle k nows hlen _
    -- Where the bounds are equal nothing is counted, and the period is the bound.
    rcases Nat.lt_or_ge s.inner.minPeriod s.inner.maxPeriod with hlt | hge
    · have hrun := idle_run hlt h.never nows s 0 rfl rfl h.idle (by
        rw [Nat.pow_zero, Nat.mul_one, hmin, Nat.min_eq_left (Nat.le_of_lt hlt)])
      rw [hidle, hlen, Nat.zero_add, Nat.zero_add, Nat.mul_div_cancel k idlePolls_pos] at hrun
      exact hrun
    · have heq : s.inner.maxPeriod = s.inner.minPeriod :=
        le_antisymm hge (le_trans h.lower h.upper)
      rw [fixed_run nows s heq, hmin, heq]
      exact (Nat.min_eq_right (Nat.le_mul_of_pos_right _ (Nat.two_pow_pos k))).symm
  resets := by
    intro now _
    rfl
  touches := by
    intro now hg hlate
    -- `touch` looks at a quarter of the shortest of the periods.
    have hs := (stale_iff h hg).mpr hlate
    change (touch s.inner now).last = now ∧ (touch s.inner now).period = s.inner.minPeriod
    unfold touch Inner.resetPeriod
    rw [if_pos hs]
    split
    · exact ⟨rfl, rfl⟩
    · next hmin => exact ⟨rfl, not_not.mp hmin⟩
  skips := by
    intro now hg hearly
    have hs : ¬ s.inner.stale now := fun hs => by
      have := (stale_iff h hg).mp hs
      omega
    exact if_neg hs

theorem saturates_due (i : Inner) :
    Saturates i.last i.effectivePeriod i.deadline i.due := by
  unfold Saturates Inner.due saturatingAdd
  split <;> omega

theorem saturates_halfDue (i : Inner) : Saturates i.last (halfGap i) i.deadline i.halfDue := by
  unfold Saturates Inner.halfDue saturatingAdd
  change min (min (i.last + halfGap i) NEVER) i.deadline = _
  split <;> omega

/-- In every state that registering, running, touching and setting the period lead to, the
    law holds; and the due times saturate, whatever a duty's fields are. -/
theorem law_reachable :
    (∀ s, system.Reachable s → Law s) ∧
      ∀ i : Inner, Saturates i.last i.effectivePeriod i.deadline i.due ∧
        Saturates i.last (halfGap i) i.deadline i.halfDue := by
  refine ⟨fun s hr => ?_, fun i => ⟨saturates_due i, saturates_halfDue i⟩⟩
  have hinv : Inv s := by
    refine hr.induct (P := Inv) ?_ fun s a h hg => inv_next h hg
    rintro s ⟨place, period, waitPeriod, now, hnow, rfl⟩
    exact inv_registered place period waitPeriod hnow
  exact hinv.law

end

/-- A period of 1 to 5 microseconds, after 150 polls that found nothing. -/
def backedOff : State :=
  system.run (registered .anywhere (some (1000, 5000)) 0 0) (fruitless (List.replicate 150 7))

theorem law_backedOff : Law backedOff :=
  law_reachable.1 backedOff (system.reachable_run _ _
    ⟨.anywhere, some (1000, 5000), 0, 0, Nat.zero_le _, rfl⟩ (by decide +kernel))

example : backedOff.inner.period = 5000 := by
  decide +kernel

end Backoff

end Duty

end Cmpth

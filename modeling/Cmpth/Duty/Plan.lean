import Mathlib.Order.MinMax
import Cmpth.Duty.Registry

/-!
# What the Keeper Plans

A plan that lies in the past makes the keeper spin. It does when the keeper
relies on the promise of a timed worker that is overdue by more than the slack:
`park_timeout` looks at the clock before it takes such a promise for one, and
the keeper does not.

## Main definitions

* `Round.Overdue`: A duty the keeper has to run itself is overdue.
* `Ahead`: The keeper plans to wake up after the time of its round.
* `TrustsNoStale`: The promise the keeper relies on is not overdue.

## Theorems

* `now_lt_next`: A round that relies on no stale promise plans ahead.
* `next_le_now`: A plan that relies on a stale promise lies in the past.
* `keeper_next`: Only the keeper changes the plan, and what it has read for it.
* `round_next`: A step keeps the plan, makes one or forgets one.
* `plans_ahead_iff`: The keeper plans ahead in exactly the runs in which it relies on no stale
  promise.
* `plans_ahead_iff_registered`: The first round after a duty has been registered.
* `plans_now`: The keeper plans to wake up at a time that has come, with nothing to do.
-/

namespace Cmpth

namespace Duty

/-- As the round has found them, a duty of the keeper's is overdue, or one that
    may run anywhere and that no timed worker covers. -/
def Round.Overdue (r : Round) : Prop :=
  r.mine ≤ r.now ∨ r.trusted = none ∧ r.any ≤ r.now

/-- The promise is overdue by more than the slack. -/
def Round.Stale (r : Round) : Prop :=
  ∃ promise, r.trusted = some promise ∧ saturatingAdd promise TIMED_SLACK ≤ r.now

/-- A round that relies on no stale promise plans ahead. -/
theorem now_lt_next {r : Round} (ho : ¬ r.Overdue) (hs : ¬ r.Stale) : r.now < r.next := by
  unfold Round.Overdue at ho
  push Not at ho
  unfold Round.next
  cases ht : r.trusted with
  | none => exact lt_min ho.1 (ho.2 ht)
  | some promise =>
      refine lt_min ho.1 ?_
      by_contra hle
      exact hs ⟨promise, ht, not_lt.mp hle⟩

/-- A plan that relies on a stale promise lies in the past. -/
theorem next_le_now {r : Round} (hs : r.Stale) : r.next ≤ r.now := by
  rcases hs with ⟨promise, ht, hle⟩
  unfold Round.next
  rw [ht]
  exact (min_le_right _ _).trans hle

variable {D T : Type*}

/-- After a round the keeper plans to wake up after the time of the round. -/
def Ahead (s : State D T) : Prop :=
  ∀ r, s.keeper = .parking r ∨ s.keeper = .parked r → r.Overdue ∨ r.now < s.planned

/-- The keeper relies on no stale promise, unless it has to be up anyway. -/
def TrustsNoStale (s : State D T) : Action D T → Prop
  | .keeper _ _ => ∀ r, s.keeper = .storing r → r.Overdue ∨ ¬ r.Stale
  | _ => True

section

variable [DecidableEq D] [DecidableEq T] {s : State D T}

/-- Only the keeper changes the plan, and what it has read for it. -/
theorem keeper_next {a : Action D T} (ha : ∀ now did, a ≠ .keeper now did) :
    (next s a).planned = s.planned ∧
      ((next s a).keeper = s.keeper ∨ (next s a).keeper = .start) := by
  cases a with
  | keeper now did => exact absurd rfl (ha now did)
  | timeout => exact ⟨rfl, .inr rfl⟩
  | step t now did =>
      change (s.threadStep t now did).planned = _ ∧
        ((s.threadStep t now did).keeper = _ ∨ (s.threadStep t now did).keeper = _)
      unfold State.threadStep
      cases s.pc t with
      | registering d =>
          -- Only a registration can start the keeper.
          refine ⟨rfl, ?_⟩
          change (if s.keeper = .unborn then KeeperPc.start else s.keeper) = s.keeper ∨
            (if s.keeper = .unborn then KeeperPc.start else s.keeper) = .start
          split
          · exact .inr rfl
          · exact .inl rfl
      | sweeping now rest =>
          cases rest with
          | nil => exact ⟨rfl, .inl rfl⟩
          | cons d rest =>
              dsimp only
              split <;> exact ⟨rfl, .inl rfl⟩
      | running run now d rest => cases run <;> exact ⟨rfl, .inl rfl⟩
      | offering | taking =>
          dsimp only
          split <;> exact ⟨rfl, .inl rfl⟩
      | idle | replanning | comparing | unparking | touching | bounding | promising | leaving
        | releasing => exact ⟨rfl, .inl rfl⟩
  | register | dropWaiter | setPeriod | setWaitPeriod | setDeadline | drop | runIdle
    | requeue | release | waiter => exact ⟨rfl, .inl rfl⟩
  | touch | park =>
      unfold next
      dsimp only
      repeat' split
      all_goals exact ⟨rfl, .inl rfl⟩

/-- A step keeps the plan, makes one or forgets one. -/
theorem round_next {a : Action D T} {r : Round}
    (hr : (next s a).keeper = .parking r ∨ (next s a).keeper = .parked r) :
    ((s.keeper = .parking r ∨ s.keeper = .parked r) ∧ (next s a).planned = s.planned) ∨
      (∃ now did, a = .keeper now did) ∧ s.keeper = .storing r ∧ (next s a).planned = r.next := by
  -- Only the step that plans makes a round, and it is the keeper's own.
  by_cases ha : ∃ now did, a = .keeper now did
  · rcases ha with ⟨now, did, rfl⟩
    change (s.keeperStep now did).keeper = _ ∨ (s.keeperStep now did).keeper = _ at hr
    change _ ∧ (s.keeperStep now did).planned = _ ∨ _ ∧ _ ∧ (s.keeperStep now did).planned = _
    unfold State.keeperStep at hr ⊢
    cases hk : s.keeper with
    | storing r' =>
        simp only [hk] at hr ⊢
        rcases hr with hr | hr <;> cases hr
        exact .inr ⟨⟨now, did, rfl⟩, rfl, rfl⟩
    | parking r' =>
        simp only [hk] at hr ⊢
        by_cases ht : s.token = true
        · rw [if_pos ht] at hr
          rcases hr with hr | hr <;> cases hr
        · rw [if_neg ht] at hr ⊢
          rcases hr with hr | hr <;> cases hr
          exact .inl ⟨.inl rfl, rfl⟩
    | visiting now' rest mine any =>
        simp only [hk] at hr
        cases rest with
        | nil => rcases hr with hr | hr <;> cases hr
        | cons d rest =>
            dsimp only at hr
            split at hr <;> rcases hr with hr | hr <;> cases hr
    | running run now' d rest mine any =>
        simp only [hk] at hr
        cases run <;> rcases hr with hr | hr <;> cases hr
    | unborn =>
        simp only [hk] at hr
        rcases hr with hr | hr <;> cases hr
    | start | locking | ran | planning | covering | parked =>
        simp only [hk] at hr
        rcases hr with hr | hr <;> cases hr
  · -- Anybody else's step leaves the round as it is, or makes the keeper start again.
    rcases keeper_next fun now did h => ha ⟨now, did, h⟩ with ⟨hp, hk | hk⟩
    · rw [hk] at hr
      exact .inl ⟨hr, hp⟩
    · rw [hk] at hr
      rcases hr with hr | hr <;> cases hr

/-- The keeper plans ahead in exactly the runs in which it relies on no stale
    promise. -/
theorem plans_ahead_iff (s : State D T) (as : List (Action D T))
    (hi : (system (D := D) (T := T)).init s) (hl : system.Legal s as) :
    system.Throughout Ahead s as ↔ system.Along TrustsNoStale s as := by
  refine System.throughout_iff_along _ (I := Ahead) (fun _ h => h) ?_ ?_ as s ?_ hl
  · intro s a h _ hc r hr
    -- The plan is the one from before, which was ahead, or is made in this step.
    rcases round_next hr with ⟨hold, hp⟩ | ⟨⟨now, did, rfl⟩, hk, hp⟩
    · change r.Overdue ∨ r.now < (next s a).planned
      rw [hp]
      exact h r hold
    · change r.Overdue ∨ r.now < (next s (.keeper now did)).planned
      rw [hp]
      rcases hc r hk with ho | hs
      · exact .inl ho
      · by_cases ho : r.Overdue
        · exact .inl ho
        · exact .inr (now_lt_next ho hs)
  · -- The plan that relies on a stale promise is stored, and is in the past.
    intro s a _ _ hc h
    cases a with
    | keeper now did =>
        unfold TrustsNoStale at hc
        push Not at hc
        rcases hc with ⟨r, hk, ho, hs⟩
        have hkeeper : (next s (.keeper now did)).keeper = .parking r := by
          change (s.keeperStep now did).keeper = _
          unfold State.keeperStep
          simp only [hk]
        have hplanned : (next s (.keeper now did)).planned = r.next := by
          change (s.keeperStep now did).planned = _
          unfold State.keeperStep
          simp only [hk]
        rcases h r (.inl hkeeper) with ho' | hlt
        · exact ho ho'
        · change r.now < (next s (.keeper now did)).planned at hlt
          rw [hplanned] at hlt
          exact absurd (next_le_now hs) (not_le.mpr hlt)
    | _ => exact hc trivial
  · intro r hr
    rcases hr with hr | hr <;> cases hi.2.2.2.2.2.2.2.2.1.symm.trans hr

end

/-- A registry nobody has used. -/
def new : State Unit Bool where
  inner _ := newInner .anywhere 0 none 0
  born _ := false
  reg := []
  lock := false
  active := 0
  halfDue := 0
  planned := NEVER
  timed := false
  timedUntil := NEVER
  keeper := .unborn
  token := false
  pc _ := .idle
  holds _ := false

theorem new_init : system.init new :=
  ⟨fun _ => rfl, rfl, rfl, rfl, rfl, rfl, rfl, rfl, rfl, rfl, fun _ => rfl, fun _ => rfl⟩

/-- A round of the keeper with nothing to run, that ends in its park. -/
def quietRound (now : Nat) : List (Action Unit Bool) :=
  List.replicate 8 (.keeper now false)

/-- The first round after a duty has been registered. -/
theorem plans_ahead_iff_registered :
    system.Throughout Ahead new
      ([.register false () .anywhere (some (1000000, 1000000)) 0 0, .step false 0 false] ++
        quietRound 10) := by
  refine (plans_ahead_iff new _ new_init ?_).mpr ?_
  · refine ⟨⟨rfl, rfl, rfl, by decide⟩, ⟨nofun, by decide⟩, ?_⟩
    iterate 8 refine ⟨⟨rfl, by decide⟩, ?_⟩
    exact trivial
  · -- The only plan is made without a timed worker.
    refine ⟨trivial, trivial, nofun, nofun, nofun, nofun, nofun, nofun, ?_, nofun, trivial⟩
    intro r hr
    cases hr
    exact .inr fun ⟨_, hp, _⟩ => nomatch hp

/-- A duty of a period of a millisecond. The keeper plans to run it, and a
    worker promises to. The worker does not come back in time, so the keeper
    runs the duty, and looks again when the slack is over. -/
def brokenPromise : List (Action Unit Bool) :=
  [Action.register false () .anywhere (some (1000000, 1000000)) 0 0, .step false 0 false] ++
    quietRound 10 ++
    [Action.step false 15 false, .step false 15 false, .park true, .step true 20 false,
      .step true 20 false, .step true 20 false, .timeout] ++
    List.replicate 11 (Action.keeper 1000001 false) ++ [Action.timeout] ++ quietRound 2000000

/-- What the keeper has read when it relies on the promise that was broken. -/
def lateRound : Round where
  now := 2000000
  mine := NEVER
  any := 2000001
  trusted := some 1000000

theorem brokenPromise_legal : system.Legal new brokenPromise := by
  refine ⟨⟨rfl, rfl, rfl, by decide⟩, ⟨nofun, by decide⟩, ?_⟩
  iterate 8 refine ⟨⟨rfl, by decide⟩, ?_⟩
  refine ⟨⟨nofun, by decide⟩, ⟨nofun, by decide⟩, ⟨rfl, nofun, rfl⟩, ⟨nofun, by decide⟩,
    ⟨nofun, by decide⟩, ⟨nofun, by decide⟩, rfl, ?_⟩
  iterate 11 refine ⟨⟨rfl, by decide⟩, ?_⟩
  refine ⟨rfl, ?_⟩
  iterate 8 refine ⟨⟨rfl, by decide⟩, ?_⟩
  exact trivial

/-- The keeper plans to wake up at a time that has come, with nothing to do. -/
theorem plans_now :
    system.init new ∧ system.Legal new brokenPromise ∧
      (system.run new brokenPromise).keeper = .parked lateRound ∧
      (system.run new brokenPromise).planned = lateRound.now ∧ ¬ lateRound.Overdue ∧
      ¬ system.Throughout Ahead new brokenPromise := by
  have hround : (system.run new brokenPromise).keeper = .parked lateRound := by decide +kernel
  have hplanned : (system.run new brokenPromise).planned = 2000000 := by decide +kernel
  have ho : ¬ lateRound.Overdue := by
    rintro (h | ⟨h, _⟩)
    · exact absurd h (by decide)
    · cases h
  refine ⟨new_init, brokenPromise_legal, hround, hplanned, ho, fun h => ?_⟩
  rcases System.throughout_run _ _ _ h lateRound (.inr hround) with hx | hx
  · exact ho hx
  · rw [hplanned] at hx
    exact absurd hx (Nat.lt_irrefl _)

end Duty

end Cmpth

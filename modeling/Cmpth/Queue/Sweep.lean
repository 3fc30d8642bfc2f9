import Cmpth.Core.Wrap

/-!
# A Round of Stealing

A worker that finds nothing in its own queue tries the others. `SweepSteal` tries every
other worker in turn, and begins one further on each round. It counts the rounds with a
`usize` that wraps, and so does the index of the victim on the way through one round,
before it is taken modulo the number of workers.

In a round where the index wraps, the victims on the far side begin with worker zero
instead of going on where the near side has ended. Unless the number of workers is a
power of two, some worker is then tried twice and another one not at all.

## Main definitions

* `sweep`: One round from a given start.
* `SweepSteal`: The policy with its counter.
* `Ends`: What a round returns is what its attempts call for.

## Theorems

* `Ends.after`: One more attempt before the others.
* `sweepLoop_ends`: The result of a round is right.
* `sweepLoop_tries`: The attempts are at the victims but `me`, in their order.
* `sweepLoop_attempts`: A round with no success tries all its victims.
* `sweep_tries`: A round never tries `me`, nor anything that is not a worker.
* `covers_iff`, `sweep_covers_five`: When the victims of a round are all the others.
* `sweep_from_below`: A start below the number of workers is never near the end.
* `sweep_covers_iff`: When a round with no success tries every other worker once.
* `last_start_misses`: Three workers, with a round from the last start.
-/

namespace Cmpth

namespace Sweep

/-- What an attempt returns. -/
inductive Steal (T : Type*) where
  | empty
  | success (v : T)
  | retry
  deriving DecidableEq, Repr

variable {σ T : Type*}

/-- The attempt has taken a task. -/
def Steal.succeeds : Steal T → Bool
  | .success _ => true
  | .empty | .retry => false

/-- The attempt has lost a race. -/
def Steal.retries : Steal T → Bool
  | .retry => true
  | .empty | .success _ => false

/-- A round: what it returns, the attempts it has made, and the state of the queues. -/
structure Round (σ T : Type*) where
  result : Steal T
  attempts : List (Nat × Steal T)
  world : σ

/-- The round with one more attempt before it. -/
def Round.after (r : Round σ T) (a : Nat × Steal T) : Round σ T :=
  { r with attempts := a :: r.attempts }

/-- The loop of `sweep` over the rest of the victims. -/
def sweepLoop (trySteal : Nat → σ → Steal T × σ) (me : Nat) :
    List Nat → Bool → σ → Round σ T
  | [], sawRetry, s =>
      { result := if sawRetry = true then .retry else .empty
        attempts := []
        world := s }
  | victim :: victims, sawRetry, s =>
      if victim = me then sweepLoop trySteal me victims sawRetry s
      else
        match trySteal victim s with
        | (.success c, s') =>
            { result := .success c, attempts := [(victim, .success c)], world := s' }
        | (.retry, s') => (sweepLoop trySteal me victims true s').after (victim, .retry)
        | (.empty, s') => (sweepLoop trySteal me victims sawRetry s').after (victim, .empty)

/-- `sweep`, with a `usize` of `bits` bits and `n` workers. -/
def sweep (bits : Nat) (trySteal : Nat → σ → Steal T × σ) (start me n : Nat) (s : σ) :
    Round σ T :=
  sweepLoop trySteal me ((List.range n).map (Wrap.residue (2 ^ bits) start n)) false s

namespace SweepSteal

/-- `SweepSteal::new_state`. -/
def newState (bits me : Nat) : Nat :=
  (me * 0x9E3779B9 + 1) % 2 ^ bits

/-- `SweepSteal::try_steal`: the round, and the counter after it. -/
def trySteal (bits : Nat) (attempt : Nat → σ → Steal T × σ) (state me n : Nat) (s : σ) :
    Round σ T × Nat :=
  (sweep bits attempt state me n s, (state + 1) % 2 ^ bits)

end SweepSteal

/-- What is left of a round returns what its attempts call for: the first success, which
    ends it, and otherwise `Retry` where one of them or an earlier one asked for it. -/
def Ends (sawRetry : Bool) (attempts : List (Nat × Steal T)) (result : Steal T) : Prop :=
  (∃ before victim c, attempts = before ++ [(victim, .success c)] ∧
    (∀ a ∈ before, a.2.succeeds = false) ∧ result = .success c) ∨
  (∀ a ∈ attempts, a.2.succeeds = false) ∧
    result = if (sawRetry || attempts.any (·.2.retries)) = true then .retry else .empty

theorem Ends.after {sawRetry : Bool} {attempts : List (Nat × Steal T)} {result : Steal T}
    {a : Nat × Steal T} (h : Ends (sawRetry || a.2.retries) attempts result)
    (ha : a.2.succeeds = false) : Ends sawRetry (a :: attempts) result := by
  rcases h with ⟨before, victim, c, rfl, hbefore, hresult⟩ | ⟨hnone, hresult⟩
  · exact .inl ⟨a :: before, victim, c, rfl, List.forall_mem_cons.mpr ⟨ha, hbefore⟩, hresult⟩
  · refine .inr ⟨List.forall_mem_cons.mpr ⟨ha, hnone⟩, ?_⟩
    rw [hresult, List.any_cons, Bool.or_assoc]

/-! ### The loop -/

section

variable (trySteal : Nat → σ → Steal T × σ) (me : Nat)

-- Induction on the victims. What has been seen before them is in `sawRetry`.
theorem sweepLoop_ends : ∀ (victims : List Nat) (sawRetry : Bool) (s : σ),
    Ends sawRetry (sweepLoop trySteal me victims sawRetry s).attempts
      (sweepLoop trySteal me victims sawRetry s).result := by
  intro victims
  induction victims with
  | nil =>
      intro sawRetry s
      refine .inr ⟨List.forall_mem_nil _, ?_⟩
      simp [sweepLoop]
  | cons victim victims ih =>
      intro sawRetry s
      by_cases hme : victim = me
      · rw [sweepLoop, if_pos hme]
        exact ih sawRetry s
      · rw [sweepLoop, if_neg hme]
        rcases trySteal victim s with ⟨_ | c | _, s'⟩
        · refine Ends.after ?_ rfl
          rw [show (sawRetry || Steal.retries _) = sawRetry from Bool.or_false _]
          exact ih sawRetry s'
        · exact .inl ⟨[], victim, c, rfl, List.forall_mem_nil _, rfl⟩
        · refine Ends.after ?_ rfl
          rw [show (sawRetry || Steal.retries _) = true from Bool.or_true _]
          exact ih true s'

/-- The attempts are at the victims but `me`, in their order. -/
theorem sweepLoop_tries : ∀ (victims : List Nat) (sawRetry : Bool) (s : σ),
    (sweepLoop trySteal me victims sawRetry s).attempts.map Prod.fst <+:
      victims.filter (· ≠ me) := by
  intro victims
  induction victims with
  | nil =>
      intro sawRetry s
      exact List.prefix_refl _
  | cons victim victims ih =>
      intro sawRetry s
      by_cases hme : victim = me
      · rw [sweepLoop, if_pos hme, List.filter_cons_of_neg (by simpa using hme)]
        exact ih sawRetry s
      · rw [sweepLoop, if_neg hme, List.filter_cons_of_pos (by simpa using hme)]
        rcases trySteal victim s with ⟨_ | c | _, s'⟩
        · exact List.cons_prefix_cons.mpr ⟨rfl, ih sawRetry s'⟩
        · exact List.cons_prefix_cons.mpr ⟨rfl, List.nil_prefix⟩
        · exact List.cons_prefix_cons.mpr ⟨rfl, ih true s'⟩

/-- A round with no success tries all its victims. -/
theorem sweepLoop_attempts : ∀ (victims : List Nat) (sawRetry : Bool) (s : σ),
    (∀ a ∈ (sweepLoop trySteal me victims sawRetry s).attempts, a.2.succeeds = false) →
      (sweepLoop trySteal me victims sawRetry s).attempts.map Prod.fst =
        victims.filter (· ≠ me) := by
  intro victims
  induction victims with
  | nil =>
      intro sawRetry s _
      rfl
  | cons victim victims ih =>
      intro sawRetry s hnone
      by_cases hme : victim = me
      · rw [sweepLoop, if_pos hme] at hnone ⊢
        rw [List.filter_cons_of_neg (by simpa using hme)]
        exact ih sawRetry s hnone
      · rw [sweepLoop, if_neg hme] at hnone ⊢
        rw [List.filter_cons_of_pos (by simpa using hme)]
        revert hnone
        rcases trySteal victim s with ⟨_ | c | _, s'⟩ <;> intro hnone
        · exact congrArg _ (ih sawRetry s' (List.forall_mem_cons.mp hnone).2)
        · have hsuccess : (Steal.success c).succeeds = false := hnone _ List.mem_cons_self
          cases hsuccess
        · exact congrArg _ (ih true s' (List.forall_mem_cons.mp hnone).2)

end

/-! ### The victims of a round -/

/-- The workers other than `me`. -/
def others (me n : Nat) : List Nat :=
  (List.range n).filter (· ≠ me)

/-- Every other worker is tried, once. -/
def Covers (me n : Nat) (attempts : List (Nat × Steal T)) : Prop :=
  (attempts.map Prod.fst).Perm (others me n)

/-- A round never tries `me`, nor anything that is not a worker. -/
theorem sweep_tries {bits start me n : Nat} (trySteal : Nat → σ → Steal T × σ) (s : σ)
    (hn : 0 < n) {a : Nat × Steal T}
    (ha : a ∈ (sweep bits trySteal start me n s).attempts) : a.1 ≠ me ∧ a.1 < n := by
  have hmem := (sweepLoop_tries trySteal me _ false s).subset (List.mem_map_of_mem ha)
  rcases List.mem_filter.mp hmem with ⟨hvictim, hme⟩
  rcases List.mem_map.mp hvictim with ⟨i, -, hi⟩
  refine ⟨by simpa using hme, ?_⟩
  rw [← hi]
  exact Nat.mod_lt _ hn

theorem covers_iff {bits start me n : Nat} {trySteal : Nat → σ → Steal T × σ} {s : σ}
    (hn : 0 < n) (hstart : start < 2 ^ bits)
    (hnone : ∀ a ∈ (sweep bits trySteal start me n s).attempts, a.2.succeeds = false) :
    Covers me n (sweep bits trySteal start me n s).attempts ↔
      start + n ≤ 2 ^ bits ∨ n ∣ 2 ^ bits := by
  unfold Covers sweep
  rw [sweepLoop_attempts trySteal me _ false s hnone, ← Wrap.residue_perm_iff hn hstart]
  constructor
  · intro hperm
    exact Wrap.perm_of_filter_ne (by simp) hperm
  · intro hperm
    exact hperm.filter _

/-- A start below the number of workers is never near the end, as those of
    `RandomSweepSteal` are. -/
theorem sweep_from_below {bits start me n : Nat} {trySteal : Nat → σ → Steal T × σ} {s : σ}
    (hn : 2 * n ≤ 2 ^ bits) (hstart : start < n)
    (hnone : ∀ a ∈ (sweep bits trySteal start me n s).attempts, a.2.succeeds = false) :
    Covers me n (sweep bits trySteal start me n s).attempts :=
  (covers_iff (by omega) (by omega) hnone).mpr (.inl (by omega))

/-- A round returns the first success, and otherwise `Retry` where an attempt asked for
    one and `Empty` where none did. It never tries `me`. With no success it tries every
    other worker once if and only if the index of the victim does not wrap on the way, or
    the number of workers divides the width at which it wraps. -/
theorem sweep_covers_iff {σ T : Type*} (bits : Nat) (trySteal : Nat → σ → Steal T × σ)
    (start me n : Nat) (s : σ) (hn : 2 ≤ n) (hstart : start < 2 ^ bits) :
    let r := sweep bits trySteal start me n s
    Ends false r.attempts r.result ∧ (∀ a ∈ r.attempts, a.1 ≠ me ∧ a.1 < n) ∧
      ((∀ a ∈ r.attempts, a.2.succeeds = false) →
        (Covers me n r.attempts ↔ start + n ≤ 2 ^ bits ∨ n ∣ 2 ^ bits)) := by
  intro r
  have hpos : 0 < n := by omega
  exact ⟨sweepLoop_ends trySteal me _ false s, fun a ha => sweep_tries trySteal s hpos ha,
    covers_iff hpos hstart⟩

/-- Queues with nothing in them. -/
def nothing : Nat → Unit → Steal Nat × Unit :=
  fun _ s => (.empty, s)

theorem sweep_covers_five : Covers 2 5 (sweep 64 nothing 7 2 5 ()).attempts :=
  ((sweep_covers_iff 64 nothing 7 2 5 () (by decide) (by decide)).2.2
    (by decide +kernel)).mpr (.inl (by decide))

/-- Three workers, with a round from the last start. Worker one tries worker zero twice, and
    it does not try worker two. -/
theorem last_start_misses :
    let r := sweep 64 nothing (2 ^ 64 - 1) 1 3 ()
    r.attempts = [(0, .empty), (0, .empty)] ∧ ¬ Covers 1 3 r.attempts := by
  have hattempts : (sweep 64 nothing (2 ^ 64 - 1) 1 3 ()).attempts =
      [(0, .empty), (0, .empty)] := by decide +kernel
  refine ⟨hattempts, fun hcovers => ?_⟩
  have hcount := hcovers.count_eq 0
  rw [hattempts] at hcount
  exact absurd hcount (by decide)

end Sweep

end Cmpth

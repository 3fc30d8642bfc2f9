import Cmpth.Core.System

/-!
# The Service of `PollerUltQueue`

An external queue that a ULT of its own drains. Outside threads push behind a lock.
The service takes all there is, defers it to its worker one by one, and then looks at
the stop flag. If it is set the service returns, and else it yields and starts over.

The flag is looked at after the drain, and this is said to give a push one more drain
if it comes at the last moment before the stop. It does not. What is pushed and
stopped between the drain and the look at the flag is left behind. This takes nothing
but a `stop_service` that finds the service in between, with something inside.

## Main definitions

* `State`, `Action`, `system`: The queue with its service.
* `Drains`: What has been promised of a state.
* `Timely`: The stop does not come between a drain and the look at the flag.
* `Inv`, `Late`: What a timely stop keeps, and what another one does.

## Theorems

* `Inv.not_late`, `Inv.drains`, `inv_init`: The invariant, and the promise that it keeps.
* `Late.not_drains`: A service that has returned with something missing has broken its promise.
* `append_forward`: To defer a continuation is to move it from the one list to the other.
* `inv_next`: Every timely step keeps the invariant.
* `late_of_not_timely`: A stop that is not timely leaves something behind.
* `late_next`: A late stop is never made good.
* `drains_of_timely`: Runs with a timely stop keep the promise throughout.
* `drains_stoppedInTime`: A stop that is in time.
* `stopped_early`: A continuation that is left behind.
-/

namespace Cmpth

namespace Poller

variable {T : Type*}

/-- Where the service is in its loop. -/
inductive Pc (T : Type*) where
  | draining
  /-- With what it has taken and not deferred yet. When that is nothing, it looks at the
      flag next. -/
  | forwarding (pending : List T)
  | yielding
  | returned
  deriving DecidableEq, Repr

/-- The queue and its service. `pushed` has the continuations in the order in which they
    were pushed, `early` those before the stop, and `deferred` what has been handed to a
    worker. -/
structure State (T : Type*) where
  inner : List T
  stop : Bool
  pc : Pc T
  pushed : List T
  early : List T
  deferred : List T

/-- The steps of producers, of the service and of `stop_service`. -/
inductive Action (T : Type*) where
  | push (v : T)
  /-- `std::mem::take`, under the lock. -/
  | drain
  /-- `defer` of the next continuation. -/
  | forward
  /-- The service looks at the flag. -/
  | check
  /-- It is run again after it has yielded. -/
  | resume
  | stopService
  deriving DecidableEq, Repr

/-- What the service has taken and not deferred. -/
def Pc.pending : Pc T → List T
  | .forwarding pending => pending
  | .draining | .yielding | .returned => []

/-- The service will not drain again if the flag is set. -/
def Pc.past : Pc T → Bool
  | .forwarding _ | .returned => true
  | .draining | .yielding => false

/-- When an action is enabled. The service is stopped once. -/
def guard (s : State T) : Action T → Prop
  | .push _ => True
  | .drain => s.pc = .draining
  | .forward => s.pc.pending ≠ []
  | .check => s.pc = .forwarding []
  | .resume => s.pc = .yielding
  | .stopService => s.stop = false

instance [DecidableEq T] (s : State T) : ∀ a : Action T, Decidable (guard s a)
  | .push _ => inferInstanceAs (Decidable True)
  | .forward => inferInstanceAs (Decidable (_ ≠ _))
  | .drain | .check | .resume | .stopService => inferInstanceAs (Decidable (_ = _))

/-- The state an action leads to. -/
def next (s : State T) : Action T → State T
  | .push v => { s with inner := s.inner ++ [v], pushed := s.pushed ++ [v] }
  | .drain => { s with pc := .forwarding s.inner, inner := [] }
  | .forward =>
      match s.pc.pending with
      | [] => s
      | v :: rest => { s with pc := .forwarding rest, deferred := s.deferred ++ [v] }
  | .check => { s with pc := if s.stop = true then .returned else .yielding }
  | .resume => { s with pc := .draining }
  | .stopService => { s with stop := true, early := s.pushed }

/-- A queue that nobody has used, with its service about to start. -/
def init (s : State T) : Prop :=
  s.inner = [] ∧ s.stop = false ∧ s.pc = .draining ∧ s.pushed = [] ∧ s.early = [] ∧
    s.deferred = []

/-- The queue and its service as a guarded transition system. -/
def system : System (State T) (Action T) where
  init := init
  guard := guard
  next := next

instance [DecidableEq T] (s : State T) (a : Action T) : Decidable ((system).guard s a) :=
  inferInstanceAs (Decidable (guard s a))

/-- What is promised. Each continuation is in one place, in the order of the pushes: with
    a worker, with the service, or inside. When the service has returned, those that were
    pushed before the stop are with a worker. -/
def Drains (s : State T) : Prop :=
  s.pushed = s.deferred ++ s.pc.pending ++ s.inner ∧ s.early <+: s.pushed ∧
    (s.pc = .returned → s.early <+: s.deferred)

/-- The stop does not come between a drain and the look at the flag that follows, unless
    nothing has been pushed since. -/
def Timely (s : State T) : Action T → Prop
  | .stopService => s.pc.past = true → s.inner = []
  | _ => True

instance [DecidableEq T] (s : State T) : ∀ a : Action T, Decidable (Timely s a)
  | .stopService => inferInstanceAs (Decidable (_ → _))
  | .push _ | .drain | .forward | .check | .resume => inferInstanceAs (Decidable True)

/-- The service has drained what was pushed before the stop, or is going to. -/
structure Inv (s : State T) : Prop where
  kept : s.pushed = s.deferred ++ s.pc.pending ++ s.inner
  early : s.early <+: s.pushed
  covered : s.pc.past = true → s.early.length ≤ (s.deferred ++ s.pc.pending).length
  stopped : s.pc = .returned → s.stop = true

/-- The service is past its last drain, and has not got everything that was pushed before
    the stop. -/
structure Late (s : State T) : Prop where
  past : s.pc.past = true
  stopped : s.stop = true
  missing : (s.deferred ++ s.pc.pending).length < s.early.length

theorem Inv.not_late {s : State T} (h : Inv s) : ¬ Late s := by
  intro hl
  have := h.covered hl.past
  have := hl.missing
  omega

theorem Inv.drains {s : State T} (h : Inv s) : Drains s := by
  refine ⟨h.kept, h.early, fun hret => ?_⟩
  have hlen := h.covered (by rw [hret]; rfl)
  rw [hret, Pc.pending, List.append_nil] at hlen
  refine List.prefix_of_prefix_length_le h.early ?_ hlen
  rw [h.kept, List.append_assoc]
  exact List.prefix_append ..

/-- A service that has returned with something missing has broken its promise. -/
theorem Late.not_drains {s : State T} (h : Late s) (hret : s.pc = .returned) : ¬ Drains s := by
  intro hd
  have hle := (hd.2.2 hret).length_le
  have hlt := h.missing
  rw [hret, Pc.pending, List.append_nil] at hlt
  omega

/-- To defer a continuation is to move it from the one list to the other. -/
theorem append_forward {s : State T} {v : T} {rest : List T} (h : s.pc.pending = v :: rest) :
    s.deferred ++ [v] ++ rest = s.deferred ++ s.pc.pending := by
  rw [h, List.append_assoc, List.singleton_append]

theorem inv_init {s : State T} (hi : init s) : Inv s := by
  obtain ⟨hinner, -, hpc, hpushed, hearly, hdeferred⟩ := hi
  refine ⟨?_, ?_, fun hp => ?_, fun hr => ?_⟩
  · rw [hpushed, hdeferred, hpc, hinner]
    rfl
  · rw [hearly]
    exact List.nil_prefix
  · rw [hpc] at hp
    cases hp
  · rw [hpc] at hr
    cases hr

/-- Every timely step keeps the invariant. -/
theorem inv_next {s : State T} {a : Action T} (h : Inv s) (hg : guard s a) (hc : Timely s a) :
    Inv (next s a) := by
  -- The stop is the one step that may come late; the others move continuations on.
  cases a with
  | push v =>
      refine ⟨?_, h.early.trans (List.prefix_append ..), h.covered, h.stopped⟩
      change s.pushed ++ [v] = s.deferred ++ s.pc.pending ++ (s.inner ++ [v])
      rw [h.kept, List.append_assoc (s.deferred ++ s.pc.pending)]
  | drain =>
      have hpc : s.pc = .draining := hg
      have hall : s.pushed = s.deferred ++ s.inner := by
        rw [h.kept, hpc, Pc.pending, List.append_nil]
      refine ⟨?_, h.early, fun _ => ?_, nofun⟩
      · change s.pushed = s.deferred ++ s.inner ++ []
        rw [List.append_nil, hall]
      · change s.early.length ≤ (s.deferred ++ s.inner).length
        rw [← hall]
        exact h.early.length_le
  | forward =>
      have hpast : s.pc.past = true := by
        cases hpc : s.pc with
        | forwarding pending => rfl
        | returned | draining | yielding =>
            have hne : s.pc.pending ≠ [] := hg
            rw [hpc] at hne
            exact absurd rfl hne
      cases hp : s.pc.pending with
      | nil => exact absurd hp hg
      | cons v rest =>
          have hmove := append_forward hp
          simp only [next, hp]
          refine ⟨?_, h.early, fun _ => ?_, nofun⟩
          · change s.pushed = s.deferred ++ [v] ++ rest ++ s.inner
            rw [hmove]
            exact h.kept
          · change s.early.length ≤ (s.deferred ++ [v] ++ rest).length
            rw [hmove]
            exact h.covered hpast
  | check =>
      have hpc : s.pc = .forwarding [] := hg
      have hpend : ∀ pc : Pc T, pc.pending = [] →
          s.pushed = s.deferred ++ pc.pending ++ s.inner := by
        intro pc hn
        rw [hn, h.kept, hpc]
        rfl
      unfold next
      by_cases hs : s.stop = true
      · simp only [if_pos hs]
        refine ⟨hpend .returned rfl, h.early, fun _ => ?_, fun _ => hs⟩
        have := h.covered (by rw [hpc]; rfl)
        rwa [hpc] at this
      · simp only [if_neg hs]
        exact ⟨hpend .yielding rfl, h.early, nofun, nofun⟩
  | resume =>
      have hpc : s.pc = .yielding := hg
      refine ⟨?_, h.early, nofun, nofun⟩
      rw [show (next s .resume).pushed = s.pushed from rfl, h.kept, hpc]
      rfl
  | stopService =>
      refine ⟨h.kept, List.prefix_refl _, fun hp => ?_, fun _ => rfl⟩
      change s.pushed.length ≤ (s.deferred ++ s.pc.pending).length
      have hinner : s.inner = [] := hc hp
      exact Nat.le_of_eq (by rw [h.kept, hinner, List.append_nil])

/-- A stop that is not timely leaves something behind. -/
theorem late_of_not_timely {s : State T} {a : Action T} (h : Inv s) (hc : ¬ Timely s a) :
    Late (next s a) := by
  cases a with
  | push v | drain | forward | check | resume => exact absurd trivial hc
  | stopService =>
      have hc : ¬ (s.pc.past = true → s.inner = []) := hc
      push Not at hc
      obtain ⟨hpast, hinner⟩ := hc
      refine ⟨hpast, rfl, ?_⟩
      change (s.deferred ++ s.pc.pending).length < s.pushed.length
      have hpos : 0 < s.inner.length := List.length_pos_iff.mpr hinner
      have hlen : (s.deferred ++ s.pc.pending ++ s.inner).length =
          (s.deferred ++ s.pc.pending).length + s.inner.length := List.length_append
      rw [h.kept, hlen]
      omega

/-- Nothing makes up for it: the service does not drain again. -/
theorem late_next {s : State T} {a : Action T} (h : Late s) (hg : guard s a) :
    Late (next s a) := by
  have hpast := h.past
  -- Pushes make it worse, and the service is past its last drain.
  cases a with
  | push v => exact ⟨h.past, h.stopped, h.missing⟩
  | drain =>
      rw [show s.pc = .draining from hg] at hpast
      cases hpast
  | resume =>
      rw [show s.pc = .yielding from hg] at hpast
      cases hpast
  | stopService =>
      have hstop : s.stop = false := hg
      rw [h.stopped] at hstop
      cases hstop
  | forward =>
      cases hp : s.pc.pending with
      | nil => exact absurd hp hg
      | cons v rest =>
          simp only [next, hp]
          refine ⟨rfl, h.stopped, ?_⟩
          change (s.deferred ++ [v] ++ rest).length < s.early.length
          rw [append_forward hp]
          exact h.missing
  | check =>
      have hpc : s.pc = .forwarding [] := hg
      have hmissing := h.missing
      rw [hpc] at hmissing
      simp only [next, if_pos h.stopped]
      exact ⟨rfl, h.stopped, hmissing⟩

/-- A run whose stop is timely keeps the promise in every state it passes through. And if
    the service has returned at the end of a run, the promise is kept there exactly if the
    stop was timely. -/
theorem drains_of_timely (s : State T) (as : List (Action T)) (hi : (system).init s)
    (hl : (system).Legal s as) :
    ((system).Along Timely s as → (system).Throughout Drains s as) ∧
      (((system).run s as).pc = .returned →
        (Drains ((system).run s as) ↔ (system).Along Timely s as)) := by
  have hthrough : (system).Along Timely s as → (system).Throughout Drains s as :=
    System.throughout_of_along system (I := Inv) (fun _ h => h.drains)
      (fun _ _ h hg hc => inv_next h hg hc) as s (inv_init hi) hl
  have hexact := System.along_iff_of_lasting system (C := Timely) (I := Inv) (B := Late)
    (fun _ h => h.not_late) (fun _ _ h hg hc => inv_next h hg hc)
    (fun _ _ h _ hc => late_of_not_timely h hc) (fun _ _ h hg => late_next h hg) as s
    (inv_init hi) hl
  refine ⟨hthrough, fun hret => ⟨fun hd => ?_, fun hall => ?_⟩⟩
  · rw [hexact]
    exact fun hlate => hlate.not_drains hret hd
  · exact System.throughout_run system as s (hthrough hall)

/-- A queue that nobody has used. -/
def fresh (T : Type*) : State T where
  inner := []
  stop := false
  pc := .draining
  pushed := []
  early := []
  deferred := []

/-- A continuation is pushed and the service stopped before it drains. -/
def stoppedInTime : List (Action ℕ) :=
  [.drain, .check, .push 7, .stopService, .resume, .drain, .forward, .check]

theorem drains_stoppedInTime :
    (system).Throughout Drains (fresh ℕ) stoppedInTime :=
  (drains_of_timely (fresh ℕ) stoppedInTime ⟨rfl, rfl, rfl, rfl, rfl, rfl⟩
    (by decide +kernel)).1 (by decide +kernel)

/-- A continuation is pushed after the last drain and before the stop. -/
def stoppedBetween : List (Action ℕ) :=
  [.drain, .push 7, .stopService, .check]

/-- The service returns, and the continuation is left inside. -/
theorem stopped_early :
    (system).Legal (fresh ℕ) stoppedBetween ∧
      ((system).run (fresh ℕ) stoppedBetween).pc = .returned ∧
      ((system).run (fresh ℕ) stoppedBetween).early = [7] ∧
      ((system).run (fresh ℕ) stoppedBetween).deferred = [] ∧
      ((system).run (fresh ℕ) stoppedBetween).inner = [7] ∧
      ¬ Drains ((system).run (fresh ℕ) stoppedBetween) := by
  refine ⟨by decide +kernel, by decide +kernel, by decide +kernel, by decide +kernel,
    by decide +kernel, fun h => ?_⟩
  have hle := (h.2.2 (by decide +kernel)).length_le
  exact absurd hle (by decide +kernel)

end Poller

end Cmpth

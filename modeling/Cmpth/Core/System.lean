import Mathlib.Algebra.Ring.Nat
import Mathlib.Data.List.Basic
import Mathlib.Logic.Function.Basic
import Mathlib.Tactic.Common

/-!
# Guarded Transition Systems

Runs of a system that takes one atomic action at a time, and the induction
rules the protocol models are proved with.

A `System` lists the actions it can take, the states each is enabled in, and
the state each leads to. An action carries every choice the environment makes
(which thread moves, which waiter a wake picks, whether a weak compare and
exchange fails), so the next state is a function and a run is a list of
actions.

Two notions of reachability are needed. `Reachable` is the plain one. Some
properties hold only of runs that avoid a particular branch, and for these
`ReachableIf C` admits only steps that meet `C`, a condition on the state the
step is taken in. `throughout_iff_along` is the exact form: under an invariant
that the condition preserves and whose loss shows at once, a run keeps the
property in every state exactly when every step of it meets the condition.

## Main definitions

* `System`: Initial states, guards and effects of atomic actions.
* `ReachableIf`: Reachability by steps that meet a condition.
* `Reachable`: Reachability by any steps.
* `Legal`: A list of actions, each enabled where it is taken.
* `Along`: A condition on every step of a run.
* `Throughout`: A property of every state a run passes through.
* `run`: The state a list of actions leads to.
* `Repeats`: One action, taken some number of times, leads to a state.
* `Can`: Some run leads to a state.
* `trace`: The system with a history that every step adds to.

## Theorems

* `ReachableIf.induct`: An invariant of the steps holds of what they reach.
* `reachableIf_run`: A legal run whose steps meet the condition reaches its
  end.
* `reachable_run`: A legal run reaches its end.
* `throughout_of_along`: Steps that meet the condition keep the property.
* `along_of_inv`: What the invariant says of each step of such a run.
* `throughout_iff_along`: They are the only ones that do.
* `lasting_run`: What is never undone is there at the end.
* `along_iff_of_lasting`: The exact form, where what is lost shows later.
* `countP_add_rank_le`: A rank bounds the number of steps of a kind.
* `ReachableIf.imp`, `ReachableIf.reachable`: A weaker condition, and none.
* `along_true`, `throughout_run`, `throughout_of_throughout`, `along_of_throughout`,
  `throughout_not_of_lasting`: Runs, step by step and as a whole.
* `repeats_none`, `Repeats.step`, `can_here`, `Can.step`, `Can.trans`: What a system can do.
-/

namespace Cmpth

/-- `Fin 2` and `Fin 3` name the parties of runs that are evaluated. Their
    literals take these instances, so that such a run is the same term wherever
    it is elaborated. -/
instance two_neZero : NeZero 2 := ⟨Nat.succ_ne_zero 1⟩

instance three_neZero : NeZero 3 := ⟨Nat.succ_ne_zero 2⟩

/-- A system of guarded atomic actions. -/
structure System (σ α : Type*) where
  init : σ → Prop
  guard : σ → α → Prop
  next : σ → α → σ

namespace System

variable {σ α : Type*} (M : System σ α)

/-- The states reached by steps that all meet the condition `C`. -/
inductive ReachableIf (C : σ → α → Prop) : σ → Prop where
  | init (s : σ) (h : M.init s) : ReachableIf C s
  | step (s : σ) (a : α) (hr : ReachableIf C s) (hg : M.guard s a) (hc : C s a) :
      ReachableIf C (M.next s a)

/-- The states reached by any steps at all. -/
def Reachable (s : σ) : Prop :=
  M.ReachableIf (fun _ _ => True) s

/-- Every action of the list is enabled where it is taken. -/
def Legal : σ → List α → Prop
  | _, [] => True
  | s, a :: as => M.guard s a ∧ Legal (M.next s a) as

/-- Every step of the run meets the condition. -/
def Along (C : σ → α → Prop) : σ → List α → Prop
  | _, [] => True
  | s, a :: as => C s a ∧ Along C (M.next s a) as

/-- Every state the run passes through, its ends included, has the property. -/
def Throughout (P : σ → Prop) : σ → List α → Prop
  | s, [] => P s
  | s, a :: as => P s ∧ Throughout P (M.next s a) as

/-- The state a list of actions leads to. -/
def run : σ → List α → σ
  | s, [] => s
  | s, a :: as => run (M.next s a) as

instance decidableLegal [∀ s a, Decidable (M.guard s a)] :
    ∀ (as : List α) (s : σ), Decidable (M.Legal s as)
  | [], _ => isTrue trivial
  | a :: as, s =>
      have := decidableLegal as (M.next s a)
      inferInstanceAs (Decidable (M.guard s a ∧ M.Legal (M.next s a) as))

instance decidableAlong {C : σ → α → Prop} [∀ s a, Decidable (C s a)] :
    ∀ (as : List α) (s : σ), Decidable (M.Along C s as)
  | [], _ => isTrue trivial
  | a :: as, s =>
      have := decidableAlong (C := C) as (M.next s a)
      inferInstanceAs (Decidable (C s a ∧ M.Along C (M.next s a) as))

/-- The induction rule: what holds initially and is kept by every step that
    meets the condition holds of every state such steps reach. -/
theorem ReachableIf.induct {M : System σ α} {C : σ → α → Prop} {P : σ → Prop} {s : σ}
    (h : M.ReachableIf C s) (h0 : ∀ s, M.init s → P s)
    (hstep : ∀ s a, P s → M.guard s a → C s a → P (M.next s a)) : P s := by
  induction h with
  | init s hi => exact h0 s hi
  | step s a _ hg hc ih => exact hstep s a ih hg hc

theorem Reachable.induct {M : System σ α} {P : σ → Prop} {s : σ} (h : M.Reachable s)
    (h0 : ∀ s, M.init s → P s) (hstep : ∀ s a, P s → M.guard s a → P (M.next s a)) : P s :=
  ReachableIf.induct h h0 (fun s a hP hg _ => hstep s a hP hg)

theorem ReachableIf.imp {M : System σ α} {C D : σ → α → Prop} {s : σ} (h : M.ReachableIf C s)
    (hCD : ∀ s a, C s a → D s a) : M.ReachableIf D s := by
  induction h with
  | init s hi => exact .init s hi
  | step s a _ hg hc ih => exact .step s a ih hg (hCD s a hc)

theorem ReachableIf.reachable {M : System σ α} {C : σ → α → Prop} {s : σ}
    (h : M.ReachableIf C s) : M.Reachable s :=
  h.imp fun _ _ _ => trivial

/-- A legal run whose steps meet the condition reaches its end by such
    steps. -/
theorem reachableIf_run {C : σ → α → Prop} :
    ∀ (as : List α) (s : σ), M.ReachableIf C s → M.Legal s as → M.Along C s as →
      M.ReachableIf C (M.run s as) := by
  intro as
  induction as with
  | nil => exact fun s hr _ _ => hr
  | cons a as ih =>
      intro s hr hl hc
      exact ih (M.next s a) (.step s a hr hl.1 hc.1) hl.2 hc.2

theorem along_true (s : σ) (as : List α) : M.Along (fun _ _ => True) s as := by
  induction as generalizing s with
  | nil => trivial
  | cons a as ih => exact ⟨trivial, ih _⟩

theorem reachable_run (as : List α) (s : σ) (hi : M.init s) (hl : M.Legal s as) :
    M.Reachable (M.run s as) :=
  M.reachableIf_run as s (.init s hi) hl (M.along_true s as)

theorem throughout_run {P : σ → Prop} :
    ∀ (as : List α) (s : σ), M.Throughout P s as → P (M.run s as) := by
  intro as
  induction as with
  | nil => exact fun s h => h
  | cons a as ih => exact fun s h => ih _ h.2

/-- From a state with the invariant, a run whose steps meet the condition has
    the property in every state it passes through. -/
theorem throughout_of_along {C : σ → α → Prop} {I P : σ → Prop} (hP : ∀ s, I s → P s)
    (hstep : ∀ s a, I s → M.guard s a → C s a → I (M.next s a)) :
    ∀ (as : List α) (s : σ), I s → M.Legal s as → M.Along C s as → M.Throughout P s as := by
  intro as
  induction as with
  | nil => exact fun s hI _ _ => hP s hI
  | cons a as ih =>
      intro s hI hl hc
      exact ⟨hP s hI, ih _ (hstep s a hI hl.1 hc.1) hl.2 hc.2⟩

/-- The same, where the property follows from the invariant and the condition together. -/
theorem throughout_of_throughout {I T P : σ → Prop} (hP : ∀ s, I s → T s → P s)
    (hstep : ∀ s a, I s → M.guard s a → T s → I (M.next s a)) :
    ∀ (as : List α) (s : σ), I s → M.Legal s as → M.Throughout T s as →
      M.Throughout P s as := by
  intro as
  induction as with
  | nil => exact fun s hI _ hT => hP s hI hT
  | cons a as ih =>
      intro s hI hl hT
      exact ⟨hP s hI hT.1, ih _ (hstep s a hI hl.1 hT.1) hl.2 hT.2⟩

theorem along_of_throughout {T : σ → Prop} :
    ∀ (as : List α) (s : σ), M.Throughout T s as → M.Along (fun s _ => T s) s as := by
  intro as
  induction as with
  | nil => exact fun s _ => trivial
  | cons a as ih => exact fun s hT => ⟨hT.1, ih _ hT.2⟩

/-- Along a run whose steps meet the condition, what the invariant says of each
    step. -/
theorem along_of_inv {C D : σ → α → Prop} {I : σ → Prop}
    (hD : ∀ s a, I s → M.guard s a → D s a)
    (hstep : ∀ s a, I s → M.guard s a → C s a → I (M.next s a)) :
    ∀ (as : List α) (s : σ), I s → M.Legal s as → M.Along C s as → M.Along D s as := by
  intro as
  induction as with
  | nil => exact fun s _ _ _ => trivial
  | cons a as ih =>
      intro s hI hl hc
      exact ⟨hD s a hI hl.1, ih _ (hstep s a hI hl.1 hc.1) hl.2 hc.2⟩

/-- The exact form: where a step outside the condition loses the property at
    once, the runs that keep the property are those whose steps all meet the
    condition. -/
theorem throughout_iff_along {C : σ → α → Prop} {I P : σ → Prop} (hP : ∀ s, I s → P s)
    (hstep : ∀ s a, I s → M.guard s a → C s a → I (M.next s a))
    (hbad : ∀ s a, I s → M.guard s a → ¬ C s a → ¬ P (M.next s a)) :
    ∀ (as : List α) (s : σ), I s → M.Legal s as →
      (M.Throughout P s as ↔ M.Along C s as) := by
  intro as
  induction as with
  | nil => exact fun s hI _ => ⟨fun _ => trivial, fun _ => hP s hI⟩
  | cons a as ih =>
      intro s hI hl
      by_cases hc : C s a
      · have hrest := ih _ (hstep s a hI hl.1 hc) hl.2
        exact ⟨fun h => ⟨hc, hrest.mp h.2⟩, fun h => ⟨hP s hI, hrest.mpr h.2⟩⟩
      · -- The property is lost in the very next state, whatever follows.
        have hlost := hbad s a hI hl.1 hc
        refine ⟨fun h => absurd ?_ hlost, fun h => absurd h.1 hc⟩
        cases as with
        | nil => exact h.2
        | cons b bs => exact h.2.1

/-- What is never undone is there at the end of the run. -/
theorem lasting_run {B : σ → Prop} (hlast : ∀ s a, B s → M.guard s a → B (M.next s a)) :
    ∀ (as : List α) (s : σ), B s → M.Legal s as → B (M.run s as) := by
  intro as
  induction as with
  | nil => exact fun s h _ => h
  | cons a as ih => exact fun s h hl => ih _ (hlast s a h hl.1) hl.2

/-- What is never undone, and is not there at the end, was never there. -/
theorem throughout_not_of_lasting {B : σ → Prop}
    (hlast : ∀ s a, B s → M.guard s a → B (M.next s a)) :
    ∀ (as : List α) (s : σ), M.Legal s as → ¬ B (M.run s as) →
      M.Throughout (fun t => ¬ B t) s as := by
  intro as
  induction as with
  | nil => exact fun s _ h => h
  | cons a as ih =>
      intro s hl h
      exact ⟨fun hB => h (M.lasting_run hlast (a :: as) s hB hl), ih _ hl.2 h⟩

/-- Where a step outside the condition does something that is never undone, the runs whose
    steps all meet the condition are those that end without it. -/
theorem along_iff_of_lasting {C : σ → α → Prop} {I B : σ → Prop} (hI : ∀ s, I s → ¬ B s)
    (hstep : ∀ s a, I s → M.guard s a → C s a → I (M.next s a))
    (hbad : ∀ s a, I s → M.guard s a → ¬ C s a → B (M.next s a))
    (hlast : ∀ s a, B s → M.guard s a → B (M.next s a)) :
    ∀ (as : List α) (s : σ), I s → M.Legal s as → (M.Along C s as ↔ ¬ B (M.run s as)) := by
  intro as
  induction as with
  | nil => exact fun s h _ => ⟨fun _ => hI s h, fun _ => trivial⟩
  | cons a as ih =>
      intro s h hl
      by_cases hc : C s a
      · have hrest := ih _ (hstep s a h hl.1 hc) hl.2
        exact ⟨fun hall => hrest.mp hall.2, fun hend => ⟨hc, hrest.mpr hend⟩⟩
      · exact ⟨fun hall => absurd hall.1 hc,
          fun hend => absurd (M.lasting_run hlast as _ (hbad s a h hl.1 hc) hl.2) hend⟩

/-- The bound from a rank that no step increases and that the steps of one kind decrease: a run
    has no more steps of that kind than the rank it starts with. -/
theorem countP_add_rank_le {C : σ → α → Prop} {I : σ → Prop} {p : α → Bool} {r : σ → Nat}
    (hstep : ∀ s a, I s → M.guard s a → C s a → I (M.next s a))
    (hrank : ∀ s a, I s → M.guard s a → r (M.next s a) + (p a).toNat ≤ r s) :
    ∀ (as : List α) (s : σ), I s → M.Legal s as → M.Along C s as →
      as.countP p + r (M.run s as) ≤ r s := by
  intro as
  induction as with
  | nil =>
      intro s _ _ _
      simp [System.run]
  | cons a as ih =>
      intro s h hl hc
      have hrest := ih _ (hstep s a h hl.1 hc.1) hl.2 hc.2
      have hone := hrank s a h hl.1
      simp only [System.run, List.countP_cons]
      cases hp : p a <;> simp only [hp, Bool.toNat_true, Bool.toNat_false] at hone ⊢ <;>
        simp <;> omega

/-- The action, taken again and again, leads to a state with the property. -/
def Repeats (a : α) (P : σ → Prop) (s : σ) : Prop :=
  ∃ n, M.Legal s (List.replicate n a) ∧ P (M.run s (List.replicate n a))

variable {M} {a : α} {P : σ → Prop} {s : σ}

theorem repeats_none (h : P s) : M.Repeats a P s :=
  ⟨0, trivial, h⟩

theorem Repeats.step (hg : M.guard s a) (h : M.Repeats a P (M.next s a)) : M.Repeats a P s := by
  rcases h with ⟨n, hl, hP⟩
  exact ⟨n + 1, ⟨hg, hl⟩, hP⟩

/-- Some run leads to a state with the property. -/
def Can (M : System σ α) (P : σ → Prop) (s : σ) : Prop :=
  ∃ as, M.Legal s as ∧ P (M.run s as)

theorem can_here (h : P s) : M.Can P s :=
  ⟨[], trivial, h⟩

theorem Can.step (hg : M.guard s a) (h : M.Can P (M.next s a)) : M.Can P s := by
  rcases h with ⟨as, hl, hP⟩
  exact ⟨a :: as, ⟨hg, hl⟩, hP⟩

theorem Can.trans {Q : σ → Prop} (h : M.Can Q s) (hQ : ∀ t, Q t → M.Can P t) : M.Can P s := by
  rcases h with ⟨as, hl, hq⟩
  induction as generalizing s with
  | nil => exact hQ s hq
  | cons a as ih => exact .step hl.1 (ih hl.2 hq)

/-- The system with a history, which starts as `g₀` and which no guard and no
    state depends on. -/
def trace {γ : Type*} (M : System σ α) (g₀ : γ) (add : γ → σ → α → γ) : System (σ × γ) α where
  init x := M.init x.1 ∧ x.2 = g₀
  guard x a := M.guard x.1 a
  next x a := (M.next x.1 a, add x.2 x.1 a)

end System

end Cmpth

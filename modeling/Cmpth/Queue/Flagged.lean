import Cmpth.Core.System
import Mathlib.Data.Multiset.AddSub
import Mathlib.Logic.Function.Basic

/-!
# A Flag in Front of a Lock

A queue behind a lock, with an atomic flag beside it that says whether there is
anything inside. Whoever wants an item looks at the flag first and leaves the lock
alone where it is false. `StealPathQueue` is such a queue, and so is the `Deferred`
side of a `HybridRunQueue`. Both insert at the back. The one takes from the back as
well, the other from the front.

The flag is raised after the insertion, when the lock is free again. It is lowered
by a taker that has left nothing, and that still has the lock. So an insertion is
before such a taker's section, and its item is gone, or it is after, and so is the
store that raises the flag.

A taker returns an item some time after it has removed it. `taken` records the
removal.

## Main definitions

* `End`, `takeFrom`: Which end items are taken from.
* `State`, `Action`, `system`: The queue as a guarded transition system.
* `Inv`: What every step keeps.
* `stealPathQueue`, `deferred`: The two queues of the code.

## Theorems

* `takeFrom_nil`: Nothing is taken from an empty queue.
* `eq_nil_of_takeFrom`: Only an empty queue has nothing to take.
* `perm_of_takeFrom`: What is taken was inside, once.
* `Inv.quiet`: Where no flag store is due, the flag shows what is inside.
* `inv_init`, `Inv.of_reachable`: The invariant holds in every state.
* `shown_setPc`: A thread that is in no section before or after a step, and was not about to raise
  the flag, leaves what the others know.
* `section_setPc`, `lowers_setPc`, `section_of_lowers`: One party goes on, and the others are where
  they were.
* `Inv.free`: Where the lock is free nobody is in the section.
* `inv_next`: Every step keeps the invariant.
* `stealPathQueue_strands_nothing`: Nothing is lost, and nothing is invisible.
* `strands_nothing_pushed`: A party that pushes while another takes.
-/

namespace Cmpth

namespace Flagged

/-- Which end of the queue items are taken from. -/
inductive End where
  | front
  | back
  deriving DecidableEq, Repr

variable {T : Type*}

/-- The item that is next, and what is left. -/
def takeFrom : End → List T → Option (T × List T)
  | .front, [] => none
  | .front, v :: q => some (v, q)
  | .back, q => q.getLast?.map (·, q.dropLast)

theorem takeFrom_nil (e : End) : takeFrom e ([] : List T) = none := by
  cases e <;> rfl

/-- Only an empty queue has nothing to take. -/
theorem eq_nil_of_takeFrom {e : End} {q : List T} (h : takeFrom e q = none) : q = [] := by
  cases e with
  | front =>
      cases q with
      | nil => rfl
      | cons v q => cases h
  | back => exact List.getLast?_eq_none_iff.mp (Option.map_eq_none_iff.mp h)

/-- What is taken was inside, once. -/
theorem perm_of_takeFrom {e : End} {q rest : List T} {v : T}
    (h : takeFrom e q = some (v, rest)) : q.Perm (v :: rest) := by
  cases e with
  | front =>
      cases q with
      | nil => cases h
      | cons w q =>
          cases h
          exact List.Perm.refl _
  | back =>
      obtain ⟨w, hw, heq⟩ := Option.map_eq_some_iff.mp h
      obtain ⟨rfl, rfl⟩ := Prod.mk.inj heq
      have happend : q.dropLast ++ [w] = q := List.dropLast_append_getLast? w hw
      calc q.Perm (q.dropLast ++ [w]) := by rw [happend]
        _ |>.Perm (w :: q.dropLast) := List.perm_append_singleton w _

/-- Where a thread is in `push` or `try_take`. -/
inductive Pc (T : Type*) where
  | idle
  /-- Its item is inside; about to raise the flag. -/
  | raising
  /-- It has seen the flag; about to lock. -/
  | locking
  /-- It has the lock and left nothing; about to lower the flag. -/
  | lowering (item : Option T)
  /-- It has the lock, and is about to return. -/
  | unlocking (item : Option T)
  deriving DecidableEq, Repr

/-- The queue and its users. `pushed` and `taken` record the items. -/
structure State (K T : Type*) where
  q : List T
  nonEmpty : Bool
  lock : Option K
  pc : K → Pc T
  pushed : List T
  taken : List T

/-- The accesses of `push` and `try_take`. -/
inductive Action (K T : Type*) where
  /-- `push`: the insertion. -/
  | push (k : K) (v : T)
  | raise (k : K)
  /-- `try_take`: the load of the flag. -/
  | check (k : K)
  /-- It locks and removes an item. -/
  | remove (k : K)
  | lower (k : K)
  | unlock (k : K)
  deriving DecidableEq, Repr

variable {K : Type*}

/-- The thread has the lock and is about to lower the flag. -/
def Pc.lowers : Pc T → Bool
  | .lowering _ => true
  | .idle | .raising | .locking | .unlocking _ => false

/-- The thread has the lock, with the item it is to return. -/
def Pc.section? : Pc T → Option (Option T)
  | .lowering item | .unlocking item => some item
  | .idle | .raising | .locking => none

/-- When an action is enabled. -/
def guard (s : State K T) : Action K T → Prop
  | .push k _ => s.pc k = .idle ∧ s.lock = none
  | .raise k => s.pc k = .raising
  | .check k => s.pc k = .idle
  | .remove k => s.pc k = .locking ∧ s.lock = none
  | .lower k => (s.pc k).lowers = true
  | .unlock k => (s.pc k).lowers = false ∧ (s.pc k).section?.isSome = true

instance [DecidableEq T] (s : State K T) : ∀ a : Action K T, Decidable (guard s a)
  | .push .. | .remove _ | .unlock _ => inferInstanceAs (Decidable (_ ∧ _))
  | .raise _ | .check _ | .lower _ => inferInstanceAs (Decidable (_ = _))

section

variable [DecidableEq K]

/-- Put a party in another place. -/
def State.setPc (s : State K T) (k : K) (pc : Pc T) : State K T :=
  { s with pc := Function.update s.pc k pc }

/-- The state an action leads to. -/
def next (e : End) (s : State K T) : Action K T → State K T
  | .push k v => { s.setPc k .raising with q := s.q ++ [v], pushed := v :: s.pushed }
  | .raise k => { s.setPc k .idle with nonEmpty := true }
  | .check k => s.setPc k (if s.nonEmpty = true then .locking else .idle)
  | .remove k =>
      match takeFrom e s.q with
      | none => { s.setPc k (.lowering none) with lock := some k }
      | some (v, rest) =>
          { s.setPc k (if rest.isEmpty = true then .lowering (some v) else .unlocking (some v)) with
            q := rest
            lock := some k
            taken := v :: s.taken }
  | .lower k =>
      match (s.pc k).section? with
      | none => s
      | some item => { s.setPc k (.unlocking item) with nonEmpty := false }
  | .unlock k => { s.setPc k .idle with lock := none }

/-- A queue that nobody has used. -/
def init (s : State K T) : Prop :=
  s.q = [] ∧ s.nonEmpty = false ∧ s.lock = none ∧ (∀ k, s.pc k = .idle) ∧ s.pushed = [] ∧
    s.taken = []

/-- The queue as a guarded transition system. -/
def system (e : End) : System (State K T) (Action K T) where
  init := init
  guard := guard
  next := next e

end

/-- `StealPathQueue`: `Vec::push` and `Vec::pop`. -/
def stealPathQueue (K T : Type*) [DecidableEq K] : System (State K T) (Action K T) :=
  system .back

/-- `Deferred`: `push_back` and `pop_front`. -/
def deferred (K T : Type*) [DecidableEq K] : System (State K T) (Action K T) :=
  system .front

instance [DecidableEq K] [DecidableEq T] (e : End) (s : State K T) (a : Action K T) :
    Decidable ((system e).guard s a) :=
  inferInstanceAs (Decidable (guard s a))

instance [DecidableEq K] [DecidableEq T] (s : State K T) (a : Action K T) :
    Decidable ((stealPathQueue K T).guard s a) :=
  inferInstanceAs (Decidable (guard s a))

/-- What every step keeps. -/
structure Inv (s : State K T) : Prop where
  /-- What was pushed is taken or inside. -/
  kept : s.pushed.Perm (s.taken ++ s.q)
  /-- The flag shows what is inside, or is about to. -/
  shown : s.q ≠ [] → s.nonEmpty = true ∨ ∃ k, s.pc k = .raising
  /-- Whoever is in the section has the lock. -/
  locked : ∀ k, (s.pc k).section?.isSome = true → s.lock = some k
  /-- Whoever is about to lower the flag has left nothing. -/
  emptied : ∀ k, (s.pc k).lowers = true → s.q = []

/-- A push has inserted its item, or a take has removed one, and its store to the flag is
    due. -/
def StoreDue (s : State K T) : Prop :=
  ∃ k, s.pc k = .raising ∨ (s.pc k).lowers = true

theorem Inv.quiet {s : State K T} (h : Inv s) (hs : ¬ StoreDue s) (hq : s.q ≠ []) :
    s.nonEmpty = true := by
  rcases h.shown hq with hflag | ⟨k, hk⟩
  · exact hflag
  · exact absurd ⟨k, .inl hk⟩ hs

theorem inv_init {s : State K T} (hi : init s) : Inv s := by
  obtain ⟨hq, -, -, hpc, hpushed, htaken⟩ := hi
  refine ⟨?_, fun hne => absurd hq hne, fun k hk => ?_, fun k _ => hq⟩
  · rw [hq, hpushed, htaken]
    exact List.Perm.refl _
  · rw [hpc k] at hk
    cases hk

section

variable [DecidableEq K] {s : State K T} {k : K} {pc : Pc T}

/-- A thread that is in no section before or after a step, and was not about to raise the
    flag, leaves what the others know. -/
theorem shown_setPc (h : s.q ≠ [] → s.nonEmpty = true ∨ ∃ j, s.pc j = .raising)
    (hk : s.pc k ≠ .raising) (hq : s.q ≠ []) :
    s.nonEmpty = true ∨ ∃ j, Function.update s.pc k pc j = .raising := by
  rcases h hq with hflag | ⟨j, hj⟩
  · exact .inl hflag
  · refine .inr ⟨j, ?_⟩
    have hne : j ≠ k := fun hjk => hk (hjk ▸ hj)
    exact (Function.update_of_ne hne ..).trans hj

theorem section_setPc {P : K → Prop} (h : ∀ j, (s.pc j).section?.isSome = true → P j)
    (hpc : pc.section?.isSome = true → P k) (j : K)
    (hj : (Function.update s.pc k pc j).section?.isSome = true) : P j := by
  by_cases hjk : j = k
  · subst hjk
    rw [Function.update_self] at hj
    exact hpc hj
  · rw [Function.update_of_ne hjk] at hj
    exact h j hj

theorem lowers_setPc {P : Prop} (h : ∀ j, (s.pc j).lowers = true → P)
    (hpc : pc.lowers = true → P) (j : K)
    (hj : (Function.update s.pc k pc j).lowers = true) : P := by
  by_cases hjk : j = k
  · subst hjk
    rw [Function.update_self] at hj
    exact hpc hj
  · rw [Function.update_of_ne hjk] at hj
    exact h j hj

omit [DecidableEq K] in
/-- Where the lock is free nobody is in the section. -/
theorem Inv.free (h : Inv s) (hl : s.lock = none) (j : K) :
    (s.pc j).section?.isSome ≠ true := by
  intro hj
  have := h.locked j hj
  rw [hl] at this
  cases this

theorem section_of_lowers (h : pc.lowers = true) : pc.section?.isSome = true := by
  cases pc with
  | lowering item => rfl
  | idle | raising | locking | unlocking item => cases h

/-- Every step keeps the invariant. -/
theorem inv_next (e : End) {a : Action K T} (h : Inv s) (hg : guard s a) :
    Inv (next e s a) := by
  cases a with
  | push k v =>
      obtain ⟨hpc, hlock⟩ := hg
      refine ⟨?_, fun _ => .inr ⟨k, Function.update_self ..⟩,
        section_setPc h.locked nofun, lowers_setPc (fun j hj => ?_) nofun⟩
      · change (v :: s.pushed).Perm (s.taken ++ (s.q ++ [v]))
        rw [← List.append_assoc]
        exact (h.kept.cons v).trans (List.perm_append_singleton v _).symm
      · -- Nobody is in the section, with the lock free.
        exact absurd (section_of_lowers hj) (h.free hlock j)
  | raise k =>
      refine ⟨h.kept, fun _ => .inl rfl, section_setPc h.locked nofun,
        lowers_setPc h.emptied nofun⟩
  | check k =>
      have hpc : s.pc k = .idle := hg
      refine ⟨h.kept, shown_setPc h.shown (by rw [hpc]; nofun), section_setPc h.locked ?_,
        lowers_setPc h.emptied ?_⟩
      · split <;> nofun
      · split <;> nofun
  | remove k =>
      obtain ⟨hpc, hlock⟩ := hg
      -- Who removes is not the one that is going to raise the flag.
      have hraise : s.pc k ≠ .raising := by
        rw [hpc]
        nofun
      have hfree := h.free hlock
      unfold next
      cases ht : takeFrom e s.q with
      | none =>
          have hq := eq_nil_of_takeFrom ht
          exact ⟨h.kept, fun hne => absurd hq hne,
            section_setPc (fun j hj => absurd hj (hfree j)) fun _ => rfl,
            lowers_setPc (fun _ _ => hq) fun _ => hq⟩
      | some x =>
          obtain ⟨v, rest⟩ := x
          have hperm := perm_of_takeFrom ht
          refine ⟨?_, fun hne => ?_, section_setPc (fun j hj => absurd hj (hfree j)) fun _ => rfl,
            lowers_setPc (fun j hj => absurd (section_of_lowers hj) (hfree j)) fun hl => ?_⟩
          · have hmove : (s.taken ++ s.q).Perm (v :: (s.taken ++ rest)) :=
              (List.Perm.append_left s.taken hperm).trans List.perm_middle
            exact h.kept.trans hmove
          · refine shown_setPc h.shown hraise fun hnil => ?_
            rw [hnil, takeFrom_nil] at ht
            cases ht
          · by_cases hrest : rest.isEmpty = true
            · exact List.isEmpty_iff.mp hrest
            · rw [if_neg hrest] at hl
              cases hl
  | lower k =>
      have hlower : (s.pc k).lowers = true := hg
      obtain ⟨item, hitem⟩ := Option.isSome_iff_exists.mp (section_of_lowers hlower)
      have hq := h.emptied k hlower
      simp only [next, hitem]
      exact ⟨h.kept, fun hne => absurd hq hne,
        section_setPc h.locked fun _ => h.locked k (section_of_lowers hlower),
        lowers_setPc (fun _ _ => hq) fun _ => hq⟩
  | unlock k =>
      obtain ⟨hlower, hsec⟩ := hg
      have hraise : s.pc k ≠ .raising := by
        intro hpc
        rw [hpc] at hsec
        cases hsec
      have hlock := h.locked k hsec
      refine ⟨h.kept, shown_setPc h.shown hraise, fun j hj => ?_, lowers_setPc h.emptied nofun⟩
      -- Nobody else is in the section.
      by_cases hjk : j = k
      · subst hjk
        change ((Function.update s.pc j .idle) j).section?.isSome = true at hj
        rw [Function.update_self] at hj
        cases hj
      · change ((Function.update s.pc k .idle) j).section?.isSome = true at hj
        rw [Function.update_of_ne hjk] at hj
        have hother := h.locked j hj
        rw [hlock] at hother
        exact absurd (Option.some.inj hother).symm hjk

theorem Inv.of_reachable {e : End} (h : (system e).Reachable s) : Inv s :=
  h.induct (fun _ hi => inv_init hi) fun _ _ h hg => inv_next e h hg

end

/-- With any number of pushers and takers, what was pushed to a `StealPathQueue` has been
    taken or is inside, each as often as it was pushed, and where no store to the flag is
    due the flag shows that something is inside. -/
theorem stealPathQueue_strands_nothing {K T : Type*} [DecidableEq K] (s : State K T)
    (h : (stealPathQueue K T).Reachable s) :
    ((s.pushed : Multiset T) = s.taken + s.q) ∧
      (¬ StoreDue s → s.q ≠ [] → s.nonEmpty = true) := by
  have hinv := Inv.of_reachable h
  refine ⟨?_, hinv.quiet⟩
  rw [Multiset.coe_add]
  exact Multiset.coe_eq_coe.mpr hinv.kept

/-- A taker empties the queue, and another item is pushed once it has lowered the flag. -/
def takenAndPushed : List (Action (Fin 2) ℕ) :=
  [.push 0 7, .raise 0, .check 1, .remove 1, .lower 1, .unlock 1, .push 0 8, .raise 0]

/-- A queue that nobody has used. -/
def empty (K T : Type*) : State K T where
  q := []
  nonEmpty := false
  lock := none
  pc _ := .idle
  pushed := []
  taken := []

theorem strands_nothing_pushed :
    let s := (stealPathQueue (Fin 2) ℕ).run (empty (Fin 2) ℕ) takenAndPushed
    (s.pushed : Multiset ℕ) = s.taken + s.q ∧ s.q = [8] ∧ s.nonEmpty = true := by
  intro s
  have hr : (stealPathQueue (Fin 2) ℕ).Reachable s :=
    System.reachable_run _ takenAndPushed _ ⟨rfl, rfl, rfl, fun _ => rfl, rfl, rfl⟩
      (by decide +kernel)
  have hdue : ¬ StoreDue s := by
    unfold StoreDue
    decide +kernel
  have hcontract := stealPathQueue_strands_nothing s hr
  have hq : s.q = [8] := by decide +kernel
  exact ⟨hcontract.1, hq, hcontract.2 hdue (by rw [hq]; nofun)⟩

end Flagged

end Cmpth

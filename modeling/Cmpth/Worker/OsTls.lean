import Mathlib.Data.Fintype.Basic
import Mathlib.Logic.Function.Basic
import Cmpth.Core.System

/-!
# Slots of OS Threads

`OsTls` keeps one pointer for each OS thread. All the `OsTls` of a process share one array of
`OS_TLS_MAX_SLOTS` pointers in each thread, and each has its own index into it, kept in its anchor
and assigned by the threads that use it first.

A thread that finds no index takes the next number, checks that the array has room for it, and
stores it unless another thread has stored its own meanwhile. The number is wasted then, and
wasted numbers count.

The slots are to be what a map from threads and anchors would be (`last`, which is history). The
counter does not wrap here.

## Main definitions

* `State`, `Action`, `system`: The slots as a guarded transition system.
* `Contract`: What the slots promise.
* `Inv`: The invariant.

## Theorems

* `update_update_apply`: A store to one entry of a table.
* `Pc.Ok.mono`: What a step has to respect for the other threads.
* `inv_init`, `inv_load`: The beginning, and the load of an anchor's index.
* `Inv.goes`: A step that only moves the thread on.
* `inv_fetch`, `inv_publish`, `inv_access`, `inv_next`: The steps.
* `index_next`: Nobody stores an index where there is one.
* `Inv.contract`: The invariant gives the contract.
* `slots_separate`: The contract.
* `slots_separate_raced`: Two threads that race for an anchor.
-/

namespace Cmpth

namespace OsTls

/-- What a thread wants of a slot; null is `none`. -/
inductive Call (V : Type*) where
  | get
  | set (p : Option V)
  /-- Only resolve the index. -/
  | warmUp
  deriving DecidableEq, Repr

/-- Where a thread is. -/
inductive Pc (A V : Type*) where
  | idle
  /-- `slot`, or `key`: about to load the index. -/
  | resolving (a : A) (c : Call V)
  /-- At the head of the loop; about to load it again. -/
  | assigning (a : A) (c : Call V)
  /-- About to take the next number. -/
  | fetching (a : A) (c : Call V)
  /-- About to store it. -/
  | publishing (a : A) (c : Call V) (candidate : Nat)
  /-- Knows the index. -/
  | accessing (a : A) (c : Call V) (i : Nat)
  | panicked
  deriving DecidableEq, Repr

/-- `got` is what a thread's last `get` has returned. -/
structure State (T A V : Type*) where
  index : A → Option Nat
  nextSlot : Nat
  slots : T → Nat → Option V
  pc : T → Pc A V
  got : T → Option V
  last : T → A → Option V

/-- A thread calls an accessor, or takes a step of it. -/
inductive Action (T A V : Type*) where
  | call (t : T) (a : A) (c : Call V)
  /-- The thread takes its next step. -/
  | step (t : T)
  deriving DecidableEq, Repr

variable {T A V : Type*}

/-- How many slots a thread has. -/
def OS_TLS_MAX_SLOTS : Nat :=
  16

/-- The thread is in a call. -/
def Pc.Steps : Pc A V → Prop
  | .idle | .panicked => False
  | .resolving _ _ | .assigning _ _ | .fetching _ _ | .publishing _ _ _ | .accessing _ _ _ => True

instance : DecidablePred (Pc.Steps : Pc A V → Prop)
  | .idle | .panicked => isFalse id
  | .resolving _ _ | .assigning _ _ | .fetching _ _ | .publishing _ _ _ | .accessing _ _ _ =>
      isTrue trivial

section

variable [DecidableEq T]

/-- Put a thread in another place. -/
def State.setPc (s : State T A V) (t : T) (pc : Pc A V) : State T A V :=
  { s with pc := Function.update s.pc t pc }

/-- The load of the index. -/
def State.load (s : State T A V) (t : T) (a : A) (c : Call V) (unassigned : Pc A V) :
    State T A V :=
  s.setPc t (match s.index a with
    | some i => .accessing a c i
    | none => unassigned)

/-- `fetch_add`, and the check for room. -/
def State.fetch (s : State T A V) (t : T) (a : A) (c : Call V) :
    State T A V :=
  { s.setPc t (if s.nextSlot < OS_TLS_MAX_SLOTS then .publishing a c s.nextSlot else .panicked) with
    nextSlot := s.nextSlot + 1 }

variable [DecidableEq A]

/-- The compare and exchange. -/
def State.publish (s : State T A V) (t : T) (a : A) (c : Call V) (candidate : Nat) :
    State T A V :=
  if s.index a = none then
    { s.setPc t (.accessing a c candidate) with
      index := Function.update s.index a (some candidate) }
  else s.setPc t (.assigning a c)

/-- The access to the thread's own pointers. -/
def State.access (s : State T A V) (t : T) (a : A) (i : Nat) : Call V → State T A V
  | .get => { s.setPc t .idle with got := Function.update s.got t (s.slots t i) }
  | .set p =>
      { s.setPc t .idle with
        slots := Function.update s.slots t (Function.update (s.slots t) i p)
        last := Function.update s.last t (Function.update (s.last t) a p) }
  | .warmUp => s.setPc t .idle

/-- The next step of a thread. -/
def State.step (s : State T A V) (t : T) : State T A V :=
  match s.pc t with
  | .idle | .panicked => s
  | .resolving a c => s.load t a c (.assigning a c)
  | .assigning a c => s.load t a c (.fetching a c)
  | .fetching a c => s.fetch t a c
  | .publishing a c candidate => s.publish t a c candidate
  | .accessing a c i => s.access t a i c

omit [DecidableEq T] [DecidableEq A] in
/-- When an action can be taken. -/
def guard (s : State T A V) : Action T A V → Prop
  | .call t _ _ => ¬(s.pc t).Steps
  | .step t => (s.pc t).Steps

/-- What an action does. -/
def next (s : State T A V) : Action T A V → State T A V
  | .call t a c => s.setPc t (.resolving a c)
  | .step t => s.step t

omit [DecidableEq T] [DecidableEq A] in
/-- Nobody has used a slot. -/
def init (s : State T A V) : Prop :=
  (∀ a, s.index a = none) ∧ s.nextSlot = 0 ∧ (∀ t i, s.slots t i = none) ∧
    (∀ t, s.pc t = .idle) ∧ ∀ t a, s.last t a = none

/-- The slots as a guarded transition system. -/
def system : System (State T A V) (Action T A V) where
  init := init
  guard := guard
  next := next

instance (s : State T A V) :
    ∀ a, Decidable (system.guard s a)
  | .call t _ _ => inferInstanceAs (Decidable ¬(s.pc t).Steps)
  | .step t => inferInstanceAs (Decidable (s.pc t).Steps)

/-- What the slots promise. -/
structure Contract (s : State T A V) : Prop where
  /-- No two anchors have one index. -/
  distinct : ∀ a b i, s.index a = some i → s.index b = some i → a = b
  /-- An index is assigned once. -/
  stable : ∀ a i x, s.index a = some i → (next s x).index a = some i
  /-- Every thread uses the index of the anchor, which is one of the array's. -/
  access : ∀ t a c i, s.pc t = .accessing a c i → s.index a = some i ∧ i < OS_TLS_MAX_SLOTS
  /-- `get` returns what the thread itself has set through the anchor, whatever others did. -/
  reads : ∀ t a i, s.pc t = .accessing a .get i →
    (next s (.step t)).got t = s.last t a
  /-- A thread panics only when more numbers have been taken than the array has room for. -/
  panics : ∀ t, s.pc t = .panicked → OS_TLS_MAX_SLOTS < s.nextSlot

end

theorem update_update_apply {X Y Z : Type*} [DecidableEq X] [DecidableEq Y] (f : X → Y → Z)
    (x x' : X) (y y' : Y) (z : Z) :
    Function.update f x (Function.update (f x) y z) x' y' =
      if x' = x ∧ y' = y then z else f x' y' := by
  by_cases hx : x' = x
  · subst hx
    rw [Function.update_self, Function.update_apply]
    simp
  · rw [Function.update_of_ne hx, if_neg fun h => hx h.1]

/-- What a thread knows where it is. -/
def Pc.Ok (s : State T A V) (t : T) : Pc A V → Prop
  | .idle | .resolving _ _ | .assigning _ _ | .fetching _ _ => True
  | .publishing _ _ n =>
      n < s.nextSlot ∧ n < OS_TLS_MAX_SLOTS ∧ (∀ b, s.index b ≠ some n) ∧
        ∀ t' a' c', s.pc t' = .publishing a' c' n → t' = t
  | .accessing a _ i => s.index a = some i
  | .panicked => OS_TLS_MAX_SLOTS < s.nextSlot

/-- Indices are in range and distinct, and the slots hold what was last stored through them. -/
structure Inv (s : State T A V) : Prop where
  bounds : ∀ a i, s.index a = some i → i < s.nextSlot ∧ i < OS_TLS_MAX_SLOTS
  distinct : ∀ a b i, s.index a = some i → s.index b = some i → a = b
  pcs : ∀ t, (s.pc t).Ok s t
  stored : ∀ t a i, s.index a = some i → s.slots t i = s.last t a
  empty : ∀ t i, (∀ a, s.index a ≠ some i) → s.slots t i = none
  unset : ∀ t a, s.index a = none → s.last t a = none

variable {s s' : State T A V} {t : T} {a : A} {c : Call V}

/-- A thread is not affected by a step that keeps every index, does not store the thread's number,
    and hands out no number again. -/
theorem Pc.Ok.mono {p : Pc A V} (hok : p.Ok s t) (hnext : s.nextSlot ≤ s'.nextSlot)
    (hindex : ∀ b i, s.index b = some i → s'.index b = some i)
    (hfree : ∀ a c n b, p = .publishing a c n → s'.index b = some n → s.index b = some n)
    (hout : ∀ t' a c n, n < s.nextSlot → s'.pc t' = .publishing a c n →
      s.pc t' = .publishing a c n) : p.Ok s' t := by
  cases p with
  | idle | resolving _ _ | assigning _ _ | fetching _ _ => trivial
  | publishing a c n =>
      rcases hok with ⟨hlt, hroom, hnone, halone⟩
      refine ⟨Nat.lt_of_lt_of_le hlt hnext, hroom, fun b hb => ?_, fun t' a' c' hx => ?_⟩
      · exact hnone b (hfree a c n b rfl hb)
      · exact halone t' a' c' (hout t' a' c' n hlt hx)
  | accessing a c i => exact hindex a i hok
  | panicked => exact Nat.lt_of_lt_of_le hok hnext

theorem inv_init (hi : init s) : Inv s := by
  rcases hi with ⟨hindex, _, hslots, hpc, hlast⟩
  refine ⟨fun a i hx => ?_, fun a b i hx => ?_, fun t => ?_, fun t a i hx => ?_,
    fun t i _ => hslots t i, fun t a _ => hlast t a⟩
  · rw [hindex] at hx
    cases hx
  · rw [hindex] at hx
    cases hx
  · rw [hpc]
    trivial
  · rw [hindex] at hx
    cases hx

variable [DecidableEq T]

/-- A step that only moves the thread on. -/
theorem Inv.goes (h : Inv s) {p : Pc A V} (hnot : ∀ a c n, p ≠ .publishing a c n)
    (hok : p.Ok s t) : Inv (s.setPc t p) := by
  refine { h with pcs := fun t' => ?_ }
  have hpcs : ∀ t' : T, (s.setPc t p).pc t' = if t' = t then p else s.pc t' :=
    fun t' => Function.update_apply ..
  rw [hpcs]
  -- The thread itself goes on to `p`; the others see what they saw.
  split
  · next ht =>
      subst ht
      cases p with
      | publishing a c n => exact absurd rfl (hnot a c n)
      | idle | resolving _ _ | assigning _ _ | fetching _ _ => trivial
      | accessing _ _ _ | panicked => exact hok
  · refine (h.pcs t').mono (Nat.le_refl _) (fun _ _ hx => hx) (fun _ _ _ _ _ hx => hx) ?_
    intro t'' a' c' n _ hx
    rw [hpcs] at hx
    split at hx
    · exact absurd hx (hnot a' c' n)
    · exact hx

/-- A thread takes the next number, which nobody else has. -/
theorem inv_fetch (h : Inv s) : Inv (s.fetch t a c) := by
  have hpcs : ∀ t' : T, (s.fetch t a c).pc t' = if t' = t then
      (if s.nextSlot < OS_TLS_MAX_SLOTS then .publishing a c s.nextSlot else .panicked)
      else s.pc t' := fun t' => Function.update_apply ..
  -- The numbers that are taken are smaller.
  have hold : ∀ t' a' c' n, s.pc t' = .publishing a' c' n → n < s.nextSlot := by
    intro t' a' c' n hx
    have hok := h.pcs t'
    rw [hx] at hok
    exact hok.1
  have hnew : ∀ t' a' c' n, (s.fetch t a c).pc t' = .publishing a' c' n →
      t' = t ∧ n = s.nextSlot ∨ s.pc t' = .publishing a' c' n := by
    intro t' a' c' n hx
    rw [hpcs] at hx
    split at hx
    · next ht =>
        split at hx
        · cases hx
          exact .inl ⟨ht, rfl⟩
        · cases hx
    · exact .inr hx
  refine
    { h with
      bounds := fun b i hx => ⟨Nat.lt_succ_of_lt (h.bounds b i hx).1, (h.bounds b i hx).2⟩
      pcs := fun t' => ?_ }
  rw [hpcs]
  split
  · next ht =>
      subst ht
      split
      · next hroom =>
          refine ⟨Nat.lt_succ_self _, hroom, fun b hx => ?_, fun t'' a' c' hx => ?_⟩
          · exact absurd (h.bounds b _ hx).1 (Nat.lt_irrefl _)
          · rcases hnew t'' a' c' _ hx with ⟨ht, _⟩ | hx
            · exact ht
            · exact absurd (hold t'' a' c' _ hx) (Nat.lt_irrefl _)
      · next hroom =>
          exact Nat.lt_succ_of_le (Nat.le_of_not_lt hroom)
  · refine (h.pcs t').mono (Nat.le_succ _) (fun _ _ hx => hx) (fun _ _ _ _ _ hx => hx) ?_
    intro t'' a' c' n hlt hx
    rcases hnew t'' a' c' n hx with ⟨_, hn⟩ | hx
    · exact absurd hlt (by rw [hn]; exact Nat.lt_irrefl _)
    · exact hx

variable [DecidableEq A]

/-- A thread stores its number, or finds that another has. -/
theorem inv_publish (h : Inv s) {n : Nat} (hpc : s.pc t = .publishing a c n) :
    Inv (s.publish t a c n) := by
  unfold State.publish
  split
  case isFalse hx => exact h.goes (fun _ _ _ hx => by cases hx) trivial
  -- The number was fetched by this thread alone, so no anchor has it.
  case isTrue hnone =>
    have hself := h.pcs t
    rw [hpc] at hself
    rcases hself with ⟨hlt, hroom, hfree, halone⟩
    have hindex : ∀ b, Function.update s.index a (some n) b = if b = a then some n
        else s.index b := fun b => Function.update_apply ..
    have hpcs : ∀ t' : T, Function.update s.pc t (.accessing a c n) t' =
        if t' = t then .accessing a c n else s.pc t' := fun t' => Function.update_apply ..
    refine ⟨fun b i hx => ?_, fun b b' i hx hx' => ?_, fun t' => ?_, fun t' b i hx => ?_,
      fun t' i hx => ?_, fun t' b hx => ?_⟩
    · have hx : Function.update s.index a (some n) b = some i := hx
      rw [hindex] at hx
      split at hx
      · cases hx
        exact ⟨hlt, hroom⟩
      · exact h.bounds b i hx
    · have hx : Function.update s.index a (some n) b = some i := hx
      have hx' : Function.update s.index a (some n) b' = some i := hx'
      rw [hindex] at hx hx'
      split at hx <;> split at hx'
      · next hb hb' => exact hb.trans hb'.symm
      · cases hx
        exact absurd hx' (hfree b')
      · cases hx'
        exact absurd hx (hfree b)
      · exact h.distinct b b' i hx hx'
    · change (Function.update s.pc t (.accessing a c n) t').Ok _ t'
      rw [hpcs]
      split
      · change Function.update s.index a (some n) a = some n
        exact Function.update_self ..
      · next ht =>
          refine (h.pcs t').mono (Nat.le_refl _) (fun b i hx => ?_) (fun a' c' n' b hpc' hx => ?_)
            (fun t'' a' c' n' _ hx => ?_)
          · have hne : b ≠ a := by
              rintro rfl
              cases hnone.symm.trans hx
            exact (Function.update_of_ne hne ..).trans hx
          · -- The number that is stored is out at one thread only.
            have hx : Function.update s.index a (some n) b = some n' := hx
            rw [hindex] at hx
            split at hx
            · cases hx
              exact absurd (halone t' a' c' hpc') ht
            · exact hx
          · have hx : Function.update s.pc t (.accessing a c n) t'' = _ := hx
            rw [hpcs] at hx
            split at hx
            · cases hx
            · exact hx
    · -- Nobody has stored anything under the new index, nor set anything through the anchor.
      have hx : Function.update s.index a (some n) b = some i := hx
      change s.slots t' i = s.last t' b
      rw [hindex] at hx
      split at hx
      · next hb =>
          cases hx
          rw [h.empty t' n hfree, hb, h.unset t' a hnone]
      · exact h.stored t' b i hx
    · refine h.empty t' i fun b hb => ?_
      have hne : b ≠ a := by
        rintro rfl
        rw [hnone] at hb
        cases hb
      refine hx b ?_
      change Function.update s.index a (some n) b = some i
      rw [Function.update_of_ne hne]
      exact hb
    · have hx : Function.update s.index a (some n) b = none := hx
      rw [hindex] at hx
      split at hx
      · cases hx
      · exact h.unset t' b hx

/-- A thread reads or writes its own pointer. -/
theorem inv_access (h : Inv s) {i : Nat} (hpc : s.pc t = .accessing a c i) :
    Inv (s.access t a i c) := by
  have hidle : Inv (s.setPc t .idle) := h.goes (fun _ _ _ hx => by cases hx) trivial
  -- Only `set` writes, and to the thread's own slot.
  cases c with
  | get => exact { hidle with pcs := hidle.pcs }
  | warmUp => exact hidle
  | set p =>
      have hself : s.index a = some i := by
        have hok := h.pcs t
        rw [hpc] at hok
        exact hok
      have hslots : ∀ (t' : T) (j : Nat), (s.access t a i (.set p)).slots t' j =
          if t' = t ∧ j = i then p else s.slots t' j :=
        fun t' j => update_update_apply ..
      have hlast : ∀ (t' : T) (b : A), (s.access t a i (.set p)).last t' b =
          if t' = t ∧ b = a then p else s.last t' b :=
        fun t' b => update_update_apply ..
      refine { hidle with
        pcs := hidle.pcs
        stored := fun t' b j hx => ?_
        empty := fun t' j hx => ?_
        unset := fun t' b hx => ?_ }
      · -- The anchor is the only one with its index.
        have hiff : b = a ↔ j = i := by
          refine ⟨fun hb => ?_, fun hj => h.distinct b a i (hj ▸ hx) hself⟩
          subst hb
          exact Option.some.inj (hx.symm.trans hself)
        rw [hslots, hlast]
        simp only [hiff]
        split
        · rfl
        · exact h.stored t' b j hx
      · rw [hslots, if_neg]
        · exact h.empty t' j hx
        · rintro ⟨_, rfl⟩
          exact hx a hself
      · rw [hlast, if_neg]
        · exact h.unset t' b hx
        · rintro ⟨_, rfl⟩
          cases hx.symm.trans hself

omit [DecidableEq A] in
theorem inv_load (h : Inv s) {p : Pc A V} (hnot : ∀ a c n, p ≠ .publishing a c n)
    (hok : p.Ok s t) : Inv (s.load t a c p) := by
  unfold State.load
  cases hi : s.index a with
  | none => exact h.goes hnot hok
  | some i => exact h.goes (fun _ _ _ hx => by cases hx) hi

theorem inv_next (h : Inv s) (x : Action T A V) : Inv (next s x) := by
  cases x with
  | call t a c => exact h.goes (fun _ _ _ hx => by cases hx) trivial
  | step t =>
      change Inv (s.step t)
      unfold State.step
      cases hpc : s.pc t with
      | idle | panicked => exact h
      | resolving _ _ => exact inv_load h (fun _ _ _ hx => by cases hx) trivial
      | assigning _ _ => exact inv_load h (fun _ _ _ hx => by cases hx) trivial
      | fetching _ _ => exact inv_fetch h
      | publishing _ _ _ => exact inv_publish h hpc
      | accessing _ _ _ => exact inv_access h hpc

/-- Nobody stores an index where there is one. -/
theorem index_next (x : Action T A V) {b : A} {i : Nat} (hb : s.index b = some i) :
    (next s x).index b = some i := by
  -- Calls leave the indices alone, and a step stores one where there is none.
  cases x with
  | call t a c => exact hb
  | step t =>
      change (s.step t).index b = some i
      unfold State.step
      cases s.pc t with
      | idle | panicked | resolving _ _ | assigning _ _ | fetching _ _ => exact hb
      | publishing a c n =>
          change (s.publish t a c n).index b = some i
          unfold State.publish
          split
          · next hnone =>
              have hne : b ≠ a := by
                rintro rfl
                cases hnone.symm.trans hb
              exact (Function.update_of_ne hne ..).trans hb
          · exact hb
      | accessing a c j => cases c <;> exact hb

theorem Inv.contract (h : Inv s) : Contract s where
  distinct := h.distinct
  stable _ _ x hx := index_next x hx
  access t a c i hpc := by
    have hok := h.pcs t
    rw [hpc] at hok
    exact ⟨hok, (h.bounds a i hok).2⟩
  reads t a i hpc := by
    have hok := h.pcs t
    rw [hpc] at hok
    have hnext : next s (.step t) = s.access t a i .get := by
      change s.step t = _
      unfold State.step
      rw [hpc]
    rw [hnext]
    exact (Function.update_self ..).trans (h.stored t a i hok)
  panics t hpc := by
    have hok := h.pcs t
    rw [hpc] at hok
    exact hok

/-- The contract, in every state the slots reach. -/
theorem slots_separate (h : (system : System (State T A V) _).Reachable s) : Contract s :=
  (System.Reachable.induct (P := Inv) h (fun _ => inv_init) fun _ x h _ => inv_next h x).contract

/-- Slots nobody has used. -/
def State.fresh : State Bool Bool Nat :=
  ⟨fun _ => none, 0, fun _ _ => none, fun _ => .idle, fun _ => none, fun _ _ => none⟩

/-- Two threads race for an index, and one of the numbers is wasted; the one that lost uses another
    slot, and both read back what they have set. -/
def raced : List (Action Bool Bool Nat) :=
  [Action.call false false (.set (some 7)), .call true false (.set (some 8))] ++
  List.replicate 3 (Action.step false) ++ List.replicate 5 (Action.step true) ++
  List.replicate 3 (Action.step false) ++ [Action.call true true (.set (some 9))] ++
  List.replicate 5 (Action.step true) ++ [Action.call false false .get, .call true false .get] ++
  List.replicate 2 (Action.step false) ++ List.replicate 2 (Action.step true)

theorem slots_separate_raced :
    let s := system.run State.fresh raced
    (s.index false = some 1 ∧ s.index true = some 2 ∧ s.nextSlot = 3 ∧ s.got false = some 7 ∧
      s.got true = some 8) ∧ Contract s := by
  refine ⟨by decide +kernel, slots_separate (system.reachable_run raced _ ?_ (by decide +kernel))⟩
  exact ⟨fun _ => rfl, rfl, fun _ _ => rfl, fun _ => rfl, fun _ _ => rfl⟩

end OsTls

end Cmpth

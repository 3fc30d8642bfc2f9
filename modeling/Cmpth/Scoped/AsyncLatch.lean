import Mathlib.Data.List.Nodup
import Cmpth.Core.System

/-!
# `AsyncLatch`

One word between a branch that has been stolen and the task that waits for it: empty, a boxed
waker, or set. The waiter may register again, with a new box, and the thief sets the latch once.

Every attempt of `register` allocates a box, and the compare-exchange may fail, by itself or
because the latch has been set in between. The box of a failed attempt is not freed. Whether a
box is lost is the only thing that can go wrong here: the waker of the last registration is
woken in any case, and no box is freed twice.

Boxes are numbered in the order in which they are allocated. A box whose address is reused has
been freed, which the thief does only after the word has left it for good.

## Main definitions

* `State`, `Action`, `system`: The latch, its waiter and the thief.
* `Held`: Somebody still has to free the box.
* `Right`: Every box is freed once or held, and the last registration is woken.
* `Exchanges`: The step is no failing compare-exchange.
* `Inv`, `Lost`: What always holds, and what a failing one leads to.

## Theorems

* `Inv.waits`: A step that frees nothing, and after which nothing else is held.
* `inv_exchange`: A new box is installed, and the waiter is left with the one it has superseded.
* `inv_dropOld`: The superseded box is freed.
* `inv_swap`: The thief takes what is in the word.
* `inv_wake`: The waker is woken, and its box is freed.
* `next_failed`: The new state after an attempt that fails.
* `inv_next`: Every step keeps the invariant.
* `inv_init`: The invariant holds at the beginning.
* `accounted_next`: What is freed or held after a step was freed or held before, or is new.
* `allocated_next`: Boxes are allocated one after the other.
* `lost_next`: A box that is lost is never found again.
* `lost_of_failed`: A failing compare-exchange loses its box at once.
* `not_lost_next`: Without one no box is lost.
* `right_iff`: All is right as long as no box is lost.
* `latch_right_iff`: The runs in which all is right are those without a failing compare-exchange.
* `latch_right_superseded`: A registration that supersedes another.
* `failed_leaks`: A registration that comes too late leaks its box.
-/

namespace Cmpth

namespace AsyncLatch

/-- `PENDING`, a boxed waker, or `DONE`. -/
inductive Word where
  | pending
  | boxed (b : Nat)
  | done
  deriving DecidableEq, Repr

/-- How far the waiter's `register` has come. -/
inductive Waiter where
  | idle
  /-- It has read the word. -/
  | trying (cur : Word)
  /-- It has installed `b`, and is about to drop the box it has superseded. -/
  | dropping (old b : Nat)
  deriving DecidableEq, Repr

/-- How far the thief's `set` has come. -/
inductive Setter where
  | idle
  /-- It has taken the box out of the word. -/
  | waking (b : Nat)
  | returned
  deriving DecidableEq, Repr

/-- The latch. `allocated` is the number of boxes, `woken` and `freed` have the boxes whose waker
    was woken and those that were freed, and `last` what the last `register` has returned, with
    its box if that was `true`. -/
structure State where
  word : Word
  waiter : Waiter
  setter : Setter
  allocated : Nat
  freed : List Nat
  woken : List Nat
  last : Option (Option Nat)
  deriving DecidableEq, Repr

/-- The accesses of `register` and of `set`, and what follows from them. -/
inductive Action where
  /-- `register`: the load. -/
  | load
  /-- The latch was set: `false`. -/
  | giveUp
  /-- A box is allocated for the attempt, and the compare-exchange is made. -/
  | attempt (spurious : Bool)
  /-- The superseded box is dropped. -/
  | dropOld
  /-- `set`: the swap. -/
  | swap
  /-- The waker is woken, and its box is freed. -/
  | wake
  deriving DecidableEq, Repr

/-- When an action is enabled. The latch is set once. -/
def guard (s : State) : Action → Prop
  | .load => s.waiter = .idle
  | .giveUp => s.waiter = .trying .done
  | .attempt _ => ∃ cur, s.waiter = .trying cur ∧ cur ≠ .done
  | .dropOld => ∃ old b, s.waiter = .dropping old b
  | .swap => s.setter = .idle
  | .wake => ∃ b, s.setter = .waking b

/-- The state an action leads to. -/
def next (s : State) : Action → State
  | .load => { s with waiter := .trying s.word }
  | .giveUp => { s with waiter := .idle, last := some none }
  | .attempt spurious =>
      match s.waiter with
      | .trying cur =>
          let b := s.allocated
          if spurious = false ∧ s.word = cur then
            match cur with
            | .boxed old =>
                { s with allocated := b + 1, word := .boxed b, waiter := .dropping old b }
            | .pending | .done =>
                { s with
                  allocated := b + 1
                  word := .boxed b
                  waiter := .idle
                  last := some (some b) }
          else { s with allocated := b + 1, waiter := .trying s.word }
      | _ => s
  | .dropOld =>
      match s.waiter with
      | .dropping old b =>
          { s with waiter := .idle, freed := old :: s.freed, last := some (some b) }
      | _ => s
  | .swap =>
      { s with
        word := .done
        setter :=
          match s.word with
          | .boxed b => .waking b
          | .pending | .done => .returned }
  | .wake =>
      match s.setter with
      | .waking b =>
          { s with setter := .returned, freed := b :: s.freed, woken := b :: s.woken }
      | _ => s

/-- A new latch. -/
def init (s : State) : Prop :=
  s.word = .pending ∧ s.waiter = .idle ∧ s.setter = .idle ∧ s.allocated = 0 ∧ s.freed = [] ∧
    s.woken = [] ∧ s.last = none

/-- The latch as a guarded transition system. -/
def system : System State Action where
  init := init
  guard := guard
  next := next

instance (s : State) : ∀ a : Action, Decidable (guard s a)
  | .load | .giveUp | .swap => inferInstanceAs (Decidable (_ = _))
  | .attempt _ =>
      match h : s.waiter with
      | .trying cur =>
          decidable_of_iff (cur ≠ .done)
            ⟨fun hc => ⟨cur, h, hc⟩, fun ⟨_, hx, hc⟩ => by rw [h] at hx; cases hx; exact hc⟩
      | .idle | .dropping _ _ => isFalse fun ⟨_, hx, _⟩ => by rw [h] at hx; cases hx
  | .dropOld =>
      match h : s.waiter with
      | .dropping old b => isTrue ⟨old, b, h⟩
      | .idle | .trying _ => isFalse fun ⟨_, _, hx⟩ => by rw [h] at hx; cases hx
  | .wake =>
      match h : s.setter with
      | .waking b => isTrue ⟨b, h⟩
      | .idle | .returned => isFalse fun ⟨_, hx⟩ => by rw [h] at hx; cases hx

instance (s : State) (a : Action) : Decidable (system.guard s a) :=
  inferInstanceAs (Decidable (guard s a))

/-- Somebody still has to free the box. -/
def Held (s : State) (b : Nat) : Prop :=
  s.word = .boxed b ∨ (∃ c, s.waiter = .dropping b c) ∨ s.setter = .waking b

/-- Every box that was allocated is freed once, or will be; and once `set` has returned, the
    waker of the last `register`, if that returned `true`, has been woken, once. -/
structure Right (s : State) : Prop where
  freed : ∀ b < s.allocated, s.freed.count b = 1 ∨ s.freed.count b = 0 ∧ Held s b
  woken : s.setter = .returned → s.waiter = .idle → ∀ b, s.last = some (some b) → s.woken = [b]

/-- The step is no compare-exchange that fails. -/
def Exchanges (s : State) : Action → Prop
  | .attempt spurious => spurious = false ∧ s.waiter = .trying s.word
  | .load | .giveUp | .dropOld | .swap | .wake => True

instance (s : State) : ∀ a : Action, Decidable (Exchanges s a)
  | .attempt _ => inferInstanceAs (Decidable (_ ∧ _))
  | .load | .giveUp | .dropOld | .swap | .wake => isTrue trivial

/-- The box is on its way to being woken. -/
def Installed (s : State) (b : Nat) : Prop :=
  s.setter = .idle ∧ s.word = .boxed b ∨ s.setter = .waking b ∨
    s.setter = .returned ∧ s.woken = [b]

/-- The box that the waiter has installed last, as far as it knows. -/
def Knows (s : State) (b : Nat) : Prop :=
  (∃ old, s.waiter = .dropping old b) ∨ (∀ old c, s.waiter ≠ .dropping old c) ∧
    s.last = some (some b)

/-- What always holds. -/
structure Inv (s : State) : Prop where
  done : s.setter = .idle ↔ s.word ≠ .done
  fresh : ∀ b, b ∈ s.freed ∨ Held s b → b < s.allocated
  held : ∀ b, Held s b → b ∉ s.freed
  nodup : s.freed.Nodup
  apart : ∀ old b, s.waiter = .dropping old b → s.word ≠ .boxed old ∧ s.setter ≠ .waking old
  silent : s.setter ≠ .returned → s.woken = []
  known : ∀ b, Knows s b → Installed s b

/-- A box that nobody will free. -/
def Lost (s : State) : Prop :=
  ∃ b < s.allocated, b ∉ s.freed ∧ ¬ Held s b

variable {s : State}

/-- A step that frees nothing, and after which nothing else is held. -/
theorem Inv.waits (h : Inv s) {w : Waiter} {last : Option (Option Nat)} {n : Nat}
    (hn : s.allocated ≤ n) (hnot : ∀ old b, s.waiter ≠ .dropping old b)
    (hw : ∀ old b, w ≠ .dropping old b)
    (hlast : ∀ b, last = some (some b) → s.last = some (some b)) :
    Inv { s with waiter := w, last := last, allocated := n } := by
  have hheld : ∀ b, Held { s with waiter := w, last := last, allocated := n } b → Held s b := by
    rintro b (hb | ⟨c, hb⟩ | hb)
    · exact .inl hb
    · exact absurd hb (hw b c)
    · exact .inr (.inr hb)
  refine ⟨h.done, fun b hb => ?_, fun b hb => h.held b (hheld b hb), h.nodup,
    fun old b hb => absurd hb (hw old b), h.silent, fun b hb => ?_⟩
  · exact Nat.lt_of_lt_of_le (h.fresh b (hb.imp_right (hheld b))) hn
  · rcases hb with ⟨old, hb⟩ | ⟨_, hb⟩
    · exact absurd hb (hw old b)
    · exact h.known b (.inr ⟨hnot, hlast b hb⟩)

/-- A new box is installed, and the waiter is left with the one it has superseded. -/
theorem inv_exchange (h : Inv s) {cur : Word} (hw : s.waiter = .trying cur) (hc : s.word = cur)
    (hd : cur ≠ .done) : Inv (next s (.attempt false)) := by
  have hidle : s.setter = .idle := h.done.mpr (by rw [hc]; exact hd)
  have hnew : s.allocated ∉ s.freed :=
    fun hm => absurd (h.fresh _ (.inl hm)) (Nat.lt_irrefl _)
  have hwoken : s.woken = [] := h.silent (by rw [hidle]; nofun)
  simp only [next, hw, hc, and_self, if_true]
  -- The first registration replaces nothing, a later one has the box before it to drop.
  cases cur with
  | done => exact absurd rfl hd
  | pending =>
      refine ⟨by simp [hidle], ?_, ?_, h.nodup, nofun, fun _ => hwoken, ?_⟩
      · rintro b (hb | hb | ⟨c, hb⟩ | hb)
        · exact Nat.lt_succ_of_lt (h.fresh b (.inl hb))
        · cases hb
          exact Nat.lt_succ_self _
        · cases hb
        · rw [hidle] at hb
          cases hb
      · rintro b (hb | ⟨c, hb⟩ | hb)
        · cases hb
          exact hnew
        · cases hb
        · rw [hidle] at hb
          cases hb
      · rintro b (⟨old, hb⟩ | ⟨-, hb⟩)
        · cases hb
        · cases hb
          exact .inl ⟨hidle, rfl⟩
  | boxed old =>
      have hold : Held s old := .inl hc
      have hlt := h.fresh old (.inr hold)
      refine ⟨by simp [hidle], ?_, ?_, h.nodup, ?_, fun _ => hwoken, ?_⟩
      · rintro b (hb | hb | ⟨c, hb⟩ | hb)
        · exact Nat.lt_succ_of_lt (h.fresh b (.inl hb))
        · cases hb
          exact Nat.lt_succ_self _
        · cases hb
          exact Nat.lt_succ_of_lt hlt
        · rw [hidle] at hb
          cases hb
      · rintro b (hb | ⟨c, hb⟩ | hb)
        · cases hb
          exact hnew
        · cases hb
          exact h.held old hold
        · rw [hidle] at hb
          cases hb
      · intro old' b hb
        cases hb
        refine ⟨fun he => ?_, by rw [hidle]; nofun⟩
        cases he
        exact absurd hlt (Nat.lt_irrefl _)
      · rintro b (⟨old', hb⟩ | ⟨hno, -⟩)
        · cases hb
          exact .inl ⟨hidle, rfl⟩
        · exact absurd rfl (hno old s.allocated)

/-- The superseded box is freed. -/
theorem inv_dropOld (h : Inv s) {old b : Nat} (hw : s.waiter = .dropping old b) :
    Inv (next s .dropOld) := by
  have hheld : Held s old := .inr (.inl ⟨b, hw⟩)
  simp only [next, hw]
  refine ⟨h.done, ?_, ?_, ?_, nofun, h.silent, ?_⟩
  · -- hx | ⟨c, hx⟩ | hx) | The box that is freed was held, and is held by nobody from here on.
    rintro x (hx | hx | ⟨c, hx⟩ | hx)
    · rcases List.mem_cons.mp hx with rfl | hx
      · exact h.fresh x (.inr hheld)
      · exact h.fresh x (.inl hx)
    · exact h.fresh x (.inr (.inl hx))
    · cases hx
    · exact h.fresh x (.inr (.inr (.inr hx)))
  · rintro x (hx | ⟨c, hx⟩ | hx) hm
    · rcases List.mem_cons.mp hm with rfl | hm
      · exact (h.apart x b hw).1 hx
      · exact h.held x (.inl hx) hm
    · cases hx
    · rcases List.mem_cons.mp hm with rfl | hm
      · exact (h.apart x b hw).2 hx
      · exact h.held x (.inr (.inr hx)) hm
  · exact List.nodup_cons.mpr ⟨h.held old hheld, h.nodup⟩
  · rintro x (⟨o, hx⟩ | ⟨-, hx⟩)
    · cases hx
    · cases hx
      exact h.known b (.inl ⟨old, hw⟩)

/-- The thief takes what is in the word. -/
theorem inv_swap (h : Inv s) (hg : s.setter = .idle) : Inv (next s .swap) := by
  have hwoken : s.woken = [] := h.silent (by rw [hg]; nofun)
  have hheld : ∀ b, Held (next s .swap) b → Held s b := by
    rintro b (hb | hb | hb)
    · cases hb
    · exact .inr (.inl hb)
    · cases hw : s.word <;> simp only [next, hw] at hb <;> cases hb
      exact .inl hw
  refine ⟨?_, fun b hb => h.fresh b (hb.imp_right (hheld b)), fun b hb => h.held b (hheld b hb),
    h.nodup, fun old b hb => ⟨nofun, fun hs => ?_⟩, fun _ => hwoken, fun b hb => ?_⟩
  · simp only [next]
    cases s.word <;> simp
  · -- What the waiter is about to drop is not what was in the word.
    cases hw : s.word <;> simp only [next, hw] at hs <;> cases hs
    exact (h.apart old b hb).1 hw
  · rcases h.known b hb with ⟨-, hw⟩ | hw | ⟨hw, -⟩
    · exact .inr (.inl (by simp only [next, hw]))
    · rw [hg] at hw
      cases hw
    · rw [hg] at hw
      cases hw

/-- The waker is woken, and its box is freed. -/
theorem inv_wake (h : Inv s) {b : Nat} (hg : s.setter = .waking b) : Inv (next s .wake) := by
  have hheld : Held s b := .inr (.inr hg)
  -- The latch is set, so no other box is in the word, and only this one is freed.
  have hdone : s.word = .done := by
    by_contra hne
    have hidle := h.done.mpr hne
    rw [hg] at hidle
    cases hidle
  have hwoken : s.woken = [] := h.silent (by rw [hg]; nofun)
  simp only [next, hg]
  refine ⟨by simp [hdone], ?_, ?_, List.nodup_cons.mpr ⟨h.held b hheld, h.nodup⟩,
    fun old c hw => ⟨(h.apart old c hw).1, nofun⟩, fun hr => absurd rfl hr, fun x hx => ?_⟩
  · rintro x (hx | hx | ⟨c, hx⟩ | hx)
    · rcases List.mem_cons.mp hx with rfl | hx
      · exact h.fresh x (.inr hheld)
      · exact h.fresh x (.inl hx)
    · exact h.fresh x (.inr (.inl hx))
    · exact h.fresh x (.inr (.inr (.inl ⟨c, hx⟩)))
    · cases hx
  · rintro x (hx | ⟨c, hx⟩ | hx) hm
    · rw [show s.word = .boxed x from hx] at hdone
      cases hdone
    · rcases List.mem_cons.mp hm with rfl | hm
      · exact (h.apart x c hx).2 hg
      · exact h.held x (.inr (.inl ⟨c, hx⟩)) hm
    · cases hx
  · rcases h.known x hx with ⟨hi, -⟩ | hw | ⟨hr, -⟩
    · rw [hg] at hi
      cases hi
    · rw [hg] at hw
      cases hw
      exact .inr (.inr ⟨rfl, by rw [hwoken]⟩)
    · rw [hg] at hr
      cases hr

/-- The new state after an attempt that fails. -/
theorem next_failed {spurious : Bool} {cur : Word} (hw : s.waiter = .trying cur)
    (hf : ¬ (spurious = false ∧ s.word = cur)) :
    next s (.attempt spurious) =
      { s with allocated := s.allocated + 1, waiter := .trying s.word } := by
  simp only [next, hw]
  rw [if_neg hf]

theorem inv_next (h : Inv s) {a : Action} (hg : guard s a) : Inv (next s a) := by
  cases a with
  | load =>
      have hw : s.waiter = .idle := hg
      exact h.waits (Nat.le_refl _) (by rw [hw]; nofun) nofun fun _ => id
  | giveUp =>
      have hw : s.waiter = .trying .done := hg
      exact h.waits (Nat.le_refl _) (by rw [hw]; nofun) nofun nofun
  | attempt spurious =>
      rcases hg with ⟨cur, hw, hd⟩
      by_cases hx : spurious = false ∧ s.word = cur
      · rw [hx.1]
        exact inv_exchange h hw hx.2 hd
      · rw [next_failed hw hx]
        exact h.waits (Nat.le_succ _) (by rw [hw]; nofun) nofun fun _ => id
  | dropOld =>
      rcases hg with ⟨old, b, hw⟩
      exact inv_dropOld h hw
  | swap => exact inv_swap h hg
  | wake =>
      rcases hg with ⟨b, hw⟩
      exact inv_wake h hw

theorem inv_init (hi : init s) : Inv s := by
  rcases hi with ⟨hword, hwaiter, hsetter, halloc, hfreed, hwoken, hlast⟩
  -- No box is made yet.
  have hheld : ∀ b, ¬ Held s b := by
    rintro b (hb | ⟨c, hb⟩ | hb)
    · rw [hword] at hb
      cases hb
    · rw [hwaiter] at hb
      cases hb
    · rw [hsetter] at hb
      cases hb
  refine ⟨by simp [hword, hsetter], fun b hb => ?_, fun b hb => absurd hb (hheld b), ?_,
    fun old b hb => ?_, fun _ => hwoken, fun b hb => ?_⟩
  · rcases hb with hb | hb
    · rw [hfreed] at hb
      cases hb
    · exact absurd hb (hheld b)
  · rw [hfreed]
    exact List.nodup_nil
  · rw [hwaiter] at hb
    cases hb
  · rcases hb with ⟨old, hb⟩ | ⟨-, hb⟩
    · rw [hwaiter] at hb
      cases hb
    · rw [hlast] at hb
      cases hb

/-- What is freed or held after a step was freed or held before, or is new. -/
theorem accounted_next {a : Action} (hg : guard s a) {b : Nat} (hb : b < s.allocated)
    (h : b ∈ (next s a).freed ∨ Held (next s a) b) : b ∈ s.freed ∨ Held s b := by
  -- A box is new at an attempt; it is freed by whoever has it, or goes to the word.
  cases a with
  | load | giveUp =>
      rcases h with h | h | ⟨c, h⟩ | h
      · exact .inl h
      · exact .inr (.inl h)
      · cases h
      · exact .inr (.inr (.inr h))
  | attempt spurious =>
      rcases hg with ⟨cur, hw, hd⟩
      -- With the exchange the box goes from the hand to the word; without it, it stays in the hand.
      by_cases hx : spurious = false ∧ s.word = cur
      · rcases hx with ⟨rfl, hc⟩
        simp only [next, hw, hc, and_self, if_true] at h
        cases cur with
        | done => exact absurd rfl hd
        | pending =>
            rcases h with h | h | ⟨c, h⟩ | h
            · exact .inl h
            · cases h
              exact absurd hb (Nat.lt_irrefl _)
            · cases h
            · exact .inr (.inr (.inr h))
        | boxed old =>
            rcases h with h | h | ⟨c, h⟩ | h
            · exact .inl h
            · cases h
              exact absurd hb (Nat.lt_irrefl _)
            · cases h
              exact .inr (.inl hc)
            · exact .inr (.inr (.inr h))
      · rw [next_failed hw hx] at h
        rcases h with h | h | ⟨c, h⟩ | h
        · exact .inl h
        · exact .inr (.inl h)
        · cases h
        · exact .inr (.inr (.inr h))
  | dropOld =>
      rcases hg with ⟨old, c, hw⟩
      simp only [next, hw] at h
      rcases h with h | h | ⟨c, h⟩ | h
      · rcases List.mem_cons.mp h with rfl | h
        · exact .inr (.inr (.inl ⟨c, hw⟩))
        · exact .inl h
      · exact .inr (.inl h)
      · cases h
      · exact .inr (.inr (.inr h))
  | swap =>
      rcases h with h | h | h | h
      · exact .inl h
      · cases h
      · exact .inr (.inr (.inl h))
      · cases hw : s.word <;> simp only [next, hw] at h <;> cases h
        exact .inr (.inl hw)
  | wake =>
      rcases hg with ⟨c, hw⟩
      simp only [next, hw] at h
      rcases h with h | h | h | h
      · rcases List.mem_cons.mp h with rfl | h
        · exact .inr (.inr (.inr hw))
        · exact .inl h
      · exact .inr (.inl h)
      · exact .inr (.inr (.inl h))
      · cases h

theorem allocated_next (s : State) (a : Action) : s.allocated ≤ (next s a).allocated := by
  cases a with
  | attempt spurious =>
      simp only [next]
      split
      · split
        · split <;> exact Nat.le_succ _
        · exact Nat.le_succ _
      · exact Nat.le_refl _
  | dropOld =>
      simp only [next]
      split <;> exact Nat.le_refl _
  | wake =>
      simp only [next]
      split <;> exact Nat.le_refl _
  | load | giveUp | swap => exact Nat.le_refl _

/-- A box that is lost is never found again. -/
theorem lost_next (h : Lost s) {a : Action} (hg : guard s a) : Lost (next s a) := by
  rcases h with ⟨b, hb, hfreed, hheld⟩
  have hnot : ¬ (b ∈ (next s a).freed ∨ Held (next s a) b) := by
    intro hx
    rcases accounted_next hg hb hx with hx | hx
    · exact hfreed hx
    · exact hheld hx
  exact ⟨b, Nat.lt_of_lt_of_le hb (allocated_next s a), fun hx => hnot (.inl hx),
    fun hx => hnot (.inr hx)⟩

/-- A failing compare-exchange loses its box at once. -/
theorem lost_of_failed (h : Inv s) {a : Action} (hg : guard s a) (hc : ¬ Exchanges s a) :
    Lost (next s a) := by
  cases a with
  | attempt spurious =>
      rcases hg with ⟨cur, hw, hd⟩
      have hf : ¬ (spurious = false ∧ s.word = cur) := by
        rintro ⟨hs, rfl⟩
        exact hc ⟨hs, hw⟩
      have hfresh : ¬ (s.allocated ∈ s.freed ∨ Held s s.allocated) :=
        fun hx => absurd (h.fresh _ hx) (Nat.lt_irrefl _)
      rw [next_failed hw hf]
      refine ⟨s.allocated, Nat.lt_succ_self _, fun hx => hfresh (.inl hx), ?_⟩
      rintro (hx | ⟨c, hx⟩ | hx)
      · exact hfresh (.inr (.inl hx))
      · cases hx
      · exact hfresh (.inr (.inr (.inr hx)))
  | load | giveUp | dropOld | swap | wake => exact absurd trivial hc

/-- Without one no box is lost. -/
theorem not_lost_next (hn : ¬ Lost s) {a : Action} (hg : guard s a) (hc : Exchanges s a) :
    ¬ Lost (next s a) := by
  -- Before the step every box was freed or held, so the lost one is let go of in it.
  have hall : ∀ b < s.allocated, b ∈ s.freed ∨ Held s b := by
    intro b hb
    by_contra hx
    exact hn ⟨b, hb, fun hm => hx (.inl hm), fun hm => hx (.inr hm)⟩
  rintro ⟨b, hb, hfreed, hheld⟩
  -- Only an attempt that fails gives up a box it has not dropped.
  cases a with
  | load =>
      have hw : s.waiter = .idle := hg
      rcases hall b hb with h | h | ⟨c, h⟩ | h
      · exact hfreed h
      · exact hheld (.inl h)
      · rw [hw] at h
        cases h
      · exact hheld (.inr (.inr h))
  | giveUp =>
      have hw : s.waiter = .trying .done := hg
      rcases hall b hb with h | h | ⟨c, h⟩ | h
      · exact hfreed h
      · exact hheld (.inl h)
      · rw [hw] at h
        cases h
      · exact hheld (.inr (.inr h))
  | attempt spurious =>
      rcases hc with ⟨rfl, hw⟩
      simp only [next, hw, and_self, if_true] at hb hfreed hheld
      cases hword : s.word <;> rw [hword] at hb hfreed hheld
      case boxed old =>
        rcases Nat.lt_succ_iff_lt_or_eq.mp hb with hlt | rfl
        · rcases hall b hlt with h | h | ⟨c, h⟩ | h
          · exact hfreed h
          · -- It has been superseded.
            rw [hword] at h
            cases h
            exact hheld (.inr (.inl ⟨_, rfl⟩))
          · rw [hw] at h
            cases h
          · exact hheld (.inr (.inr h))
        · exact hheld (.inl rfl)
      all_goals
        rcases Nat.lt_succ_iff_lt_or_eq.mp hb with hlt | rfl
        · rcases hall b hlt with h | h | ⟨c, h⟩ | h
          · exact hfreed h
          · rw [hword] at h
            cases h
          · rw [hw] at h
            cases h
          · exact hheld (.inr (.inr h))
        · exact hheld (.inl rfl)
  | dropOld =>
      rcases hg with ⟨old, c, hw⟩
      simp only [next, hw] at hb hfreed hheld
      rcases hall b hb with h | h | ⟨d, h⟩ | h
      · exact hfreed (List.mem_cons_of_mem _ h)
      · exact hheld (.inl h)
      · rw [hw] at h
        cases h
        exact hfreed List.mem_cons_self
      · exact hheld (.inr (.inr h))
  | swap =>
      have hidle : s.setter = .idle := hg
      rcases hall b hb with h | h | h | h
      · exact hfreed h
      · exact hheld (.inr (.inr (by simp only [next, h])))
      · exact hheld (.inr (.inl h))
      · rw [hidle] at h
        cases h
  | wake =>
      rcases hg with ⟨c, hw⟩
      simp only [next, hw] at hb hfreed hheld
      rcases hall b hb with h | h | h | h
      · exact hfreed (List.mem_cons_of_mem _ h)
      · exact hheld (.inl h)
      · exact hheld (.inr (.inl h))
      · rw [hw] at h
        cases h
        exact hfreed List.mem_cons_self

/-- All is right as long as no box is lost. -/
theorem right_iff (h : Inv s) : Right s ↔ ¬ Lost s := by
  constructor
  · rintro hr ⟨b, hb, hfreed, hheld⟩
    rcases hr.freed b hb with hc | ⟨-, hx⟩
    · exact hfreed (List.count_pos_iff.mp (by omega))
    · exact hheld hx
  · intro hn
    refine ⟨fun b hb => ?_, fun hs hw b hl => ?_⟩
    · -- A box that was made is freed, held, or lost.
      by_cases hm : b ∈ s.freed
      · exact .inl (List.count_eq_one_of_mem h.nodup hm)
      · by_cases hx : Held s b
        · exact .inr ⟨List.count_eq_zero.mpr hm, hx⟩
        · exact absurd ⟨b, hb, hm, hx⟩ hn
    · rcases h.known b (.inr ⟨by rw [hw]; nofun, hl⟩) with ⟨hi, -⟩ | hi | ⟨-, hi⟩
      · rw [hs] at hi
        cases hi
      · rw [hs] at hi
        cases hi
      · exact hi

/-- The runs at whose end every box is accounted for, and the last registration woken if the
    thief has been there, are those in which no compare-exchange has failed. -/
theorem latch_right_iff {s : State} {as : List Action} (hi : init s)
    (hl : system.Legal s as) : Right (system.run s as) ↔ system.Along Exchanges s as := by
  have hall : Inv (system.run s as) :=
    system.lasting_run (fun _ _ h hg => inv_next h hg) as s (inv_init hi) hl
  have hnone : ¬ Lost s := by
    rintro ⟨b, hb, -⟩
    rw [hi.2.2.2.1] at hb
    cases hb
  rw [right_iff hall]
  exact (System.along_iff_of_lasting system (I := fun t => Inv t ∧ ¬ Lost t) (fun _ h => h.2)
    (fun _ _ h hg hc => ⟨inv_next h.1 hg, not_lost_next h.2 hg hc⟩)
    (fun _ _ h hg hc => lost_of_failed h.1 hg hc) (fun _ _ h hg => lost_next h hg) as s
    ⟨inv_init hi, hnone⟩ hl).symm

/-- A new latch. -/
def new : State where
  word := .pending
  waiter := .idle
  setter := .idle
  allocated := 0
  freed := []
  woken := []
  last := none

theorem init_new : init new :=
  ⟨rfl, rfl, rfl, rfl, rfl, rfl, rfl⟩

/-- Two registrations, the second of which supersedes the first, and the `set`. -/
def supersedeRun : List Action :=
  [.load, .attempt false, .load, .attempt false, .dropOld, .swap, .wake]

theorem latch_right_superseded :
    Right (system.run new supersedeRun) ∧ (system.run new supersedeRun).woken = [1] :=
  ⟨(latch_right_iff init_new (by decide)).mpr (by decide), rfl⟩

/-- The latch is set between the load and the compare-exchange of a `register`. -/
def lateRun : List Action :=
  [.load, .swap, .attempt false, .giveUp]

/-- `register` and `set` have returned, and the box is neither freed nor held by anybody. -/
theorem failed_leaks :
    system.Legal new lateRun ∧ (system.run new lateRun).waiter = .idle ∧
      (system.run new lateRun).setter = .returned ∧ (system.run new lateRun).allocated = 1 ∧
      (system.run new lateRun).freed = [] ∧ ¬ Right (system.run new lateRun) := by
  refine ⟨by decide, rfl, rfl, rfl, rfl, fun h => ?_⟩
  rcases h.freed 0 (by decide) with h | ⟨-, h | ⟨c, h⟩ | h⟩ <;> cases h

end AsyncLatch

end Cmpth

import Cmpth.Queue.Flagged
import Cmpth.Queue.Hybrid

/-!
# A Run Queue and Its Thieves

The default run queue while others steal from it. The owner looks into the deque first
and then at what is deferred. A thief looks at what is deferred first, and then takes the
oldest item of the deque, or loses a race for it. Each operation on the deque is one
step. What is deferred is behind the flag and the lock of `Flagged`.

Nothing is lost on the way, since an item that a party has removed with the lock is still
with the lock's holder. The owner is the only one who pushes. While it is in `try_pop` the
deque that it found empty remains empty, and no store that raises the flag is due. So the
flag is down, or the section finds nothing, only where nothing is queued at all.

## Main definitions

* `State`, `Action`, `system`: The owner, the thieves and the two queues.
* `vacant`: The queue has held no item at some moment of the owner's latest `try_pop`.
* `ReturnsNone`: The owner's `try_pop` returns `None`.
* `Inv`: What every step keeps.
* `script`: The steps of one operation of the owner, with nobody else about.

## Theorems

* `hand_of_free`, `hand_of_locked`, `hand_raise`, `hand_check`, `hand_lower`: What a party inside
  the deferred queue has in its hand.
* `pc_next_of_ne`: Everybody else stays where it is.
* `raising_of_next`: Only a push has the flag still to raise.
* `inv_init`, `Inv.of_reachable`: The invariant holds in every state.
* `Base.missed_of_pc`: The owner is at what is deferred, in `try_pop`.
* `Base.missed_of_locking`, `Base.missed_of_section`: The owner that is at the deferred queue has
  missed the deque.
* `guard_inner`, `deferred_inv`, `raiser_act`, `second_act`, `base_act`: The deferred queue keeps
  its own invariant.
* `took_deferred`, `took_main`, `took_pushed`, `took_returned`, `missed_update`: What is taken, and
  by whom.
* `took_missed`: The owner is in none of its operations once `try_take` has returned to it, and is
  where it was when `try_take` returns to a thief.
* `kept_act`: Nothing is lost or duplicated.
* `section_of_act`: The owner has found nothing, now or before.
* `inv_next`: Every step keeps the invariant.
* `Inv.vacant_of_none`: Where `try_pop` returns `None` nothing was queued at some moment.
* `view_script`: Without thieves the steps of an operation do what `hybridRunQueue` says.
* `owner_run`: Without thieves the owner's run is that of `hybridRunQueue`.
* `hybrid_agrees`: The two run queues agree, and thieves lose nothing.
* `hybrid_agrees_robbed`: An owner that is robbed between its two looks.
-/

namespace Cmpth

namespace Thieves

open Flagged (takeFrom)
open RunQueue

/-- The run queue, its owner `none` and the thieves. `pushed` and `returned` record the
    items. -/
structure State (J T : Type*) where
  main : List T
  deferred : Flagged.State (Option J) T
  /-- It has found nothing in the first of its two queues, and is at the second. -/
  missed : Option J → Bool
  pushed : List T
  returned : List (Option J × T)
  vacant : Bool

/-- The steps of the owner and of the thieves, at the deque and at the deferred queue. -/
inductive Action (J T : Type*) where
  /-- The owner's `push`. -/
  | push (v : T)
  /-- The owner's `defer`: the insertion. -/
  | defer (v : T)
  /-- The owner's `defer`: the flag. -/
  | raise
  /-- The owner's `try_pop`: it looks into the deque. -/
  | pop
  /-- `Deferred::try_take`: the load of the flag. -/
  | check (k : Option J)
  | remove (k : Option J)
  | lower (k : Option J)
  | unlock (k : Option J)
  /-- `Stealer::steal`: the oldest item, or `Empty`. -/
  | steal (j : J)
  /-- `Stealer::steal`: `Retry`. -/
  | retry (j : J)
  deriving DecidableEq, Repr

variable {J T : Type*}

/-- The owner is in none of its operations. -/
def State.Home (s : State J T) : Prop :=
  s.missed none = false ∧ s.deferred.pc none = .idle

instance [DecidableEq T] (s : State J T) : Decidable s.Home :=
  inferInstanceAs (Decidable (_ ∧ _))

/-- When an action is enabled. -/
def guard (s : State J T) : Action J T → Prop
  | .push _ | .pop => s.Home
  | .defer v => s.Home ∧ Flagged.guard s.deferred (.push none v)
  | .raise => Flagged.guard s.deferred (.raise none)
  | .check k => s.missed k = k.isNone ∧ Flagged.guard s.deferred (.check k)
  | .remove k => Flagged.guard s.deferred (.remove k)
  | .lower k => Flagged.guard s.deferred (.lower k)
  | .unlock k => Flagged.guard s.deferred (.unlock k)
  | .steal j | .retry j => s.missed (some j) = true

instance [DecidableEq T] (s : State J T) : ∀ a : Action J T, Decidable (guard s a)
  | .push _ | .pop => inferInstanceAs (Decidable s.Home)
  | .defer _ | .check _ => inferInstanceAs (Decidable (_ ∧ _))
  | .raise => inferInstanceAs (Decidable (Flagged.guard s.deferred (.raise none)))
  | .remove k => inferInstanceAs (Decidable (Flagged.guard s.deferred (.remove k)))
  | .lower k => inferInstanceAs (Decidable (Flagged.guard s.deferred (.lower k)))
  | .unlock k => inferInstanceAs (Decidable (Flagged.guard s.deferred (.unlock k)))
  | .steal _ | .retry _ => inferInstanceAs (Decidable (_ = _))

/-- There is no item in the queue. -/
def State.holdsNothing (s : State J T) : Bool :=
  s.main.isEmpty && s.deferred.q.isEmpty

/-- The items of the lock's holder. -/
def hand {K : Type*} (d : Flagged.State K T) : List T :=
  match d.lock with
  | none => []
  | some k => (d.pc k).section?.join.toList

section

variable [DecidableEq J]

/-- `try_take` returns. With nothing, the owner returns as well and a thief goes on. -/
def State.took (s : State J T) (k : Option J) : Option T → State J T
  | none => { s with missed := Function.update s.missed k k.isSome }
  | some v =>
      { s with
        missed := Function.update s.missed k false
        returned := (k, v) :: s.returned }

/-- A step inside the queue of what is deferred. -/
def State.inner (s : State J T) (a : Flagged.Action (Option J) T) : State J T :=
  { s with deferred := Flagged.next .front s.deferred a }

/-- What an action does to the queue and the parties. -/
def act (s : State J T) : Action J T → State J T
  | .push v => { s with main := v :: s.main, pushed := v :: s.pushed }
  | .defer v => { s.inner (.push none v) with pushed := v :: s.pushed }
  | .raise => s.inner (.raise none)
  | .pop =>
      match s.main with
      | [] => { s with missed := Function.update s.missed none true }
      | v :: main => { s with main, returned := (none, v) :: s.returned }
  | .check k =>
      if s.deferred.nonEmpty = true then s.inner (.check k) else (s.inner (.check k)).took k none
  | .remove k => s.inner (.remove k)
  | .lower k => s.inner (.lower k)
  | .unlock k => (s.inner (.unlock k)).took k (s.deferred.pc k).section?.join
  | .steal j =>
      match takeFrom .back s.main with
      | none => { s with missed := Function.update s.missed (some j) false }
      | some (v, main) =>
          { s with
            main
            missed := Function.update s.missed (some j) false
            returned := (some j, v) :: s.returned }
  | .retry j => { s with missed := Function.update s.missed (some j) false }

/-- The call of `try_pop` begins. -/
def Action.begins : Action J T → Bool
  | .pop => true
  | .push _ | .defer _ | .raise | .check _ | .remove _ | .lower _ | .unlock _ | .steal _
  | .retry _ => false

/-- The state an action leads to. -/
def next (s : State J T) (a : Action J T) : State J T :=
  { act s a with vacant := (!a.begins && s.vacant) || (act s a).holdsNothing }

/-- A queue that nobody has used. -/
def init (s : State J T) : Prop :=
  s.main = [] ∧ Flagged.init s.deferred ∧ (∀ k, s.missed k = false) ∧ s.pushed = [] ∧
    s.returned = []

/-- The run queue and its users as a guarded transition system. -/
def system (J T : Type*) [DecidableEq J] : System (State J T) (Action J T) where
  init := init
  guard := guard
  next := next

instance [DecidableEq T] (s : State J T) (a : Action J T) : Decidable ((system J T).guard s a) :=
  inferInstanceAs (Decidable (guard s a))

end

/-- The action is the last of a `try_pop` of the owner that returns `None`. -/
def ReturnsNone (s : State J T) : Action J T → Prop
  | .check none => s.deferred.nonEmpty = false
  | .unlock none => (s.deferred.pc none).section? = some none
  | .check (some _) | .unlock (some _) | .push _ | .defer _ | .raise | .pop | .remove _ | .lower _
  | .steal _ | .retry _ => False

/-- What every step keeps of the queues and the parties. -/
structure Base (s : State J T) : Prop where
  deferred : Flagged.Inv s.deferred
  /-- What was pushed is returned, inside, or with the lock's holder. -/
  kept : s.pushed.Perm
    (s.returned.map Prod.snd ++ (s.main ++ (s.deferred.q ++ hand s.deferred)))
  /-- No thief raises the flag. -/
  raiser : ∀ j, s.deferred.pc (some j) ≠ .raising
  /-- The deque that the owner has found empty is empty, and it is not raising the flag. -/
  empty : s.missed none = true → s.main = [] ∧ s.deferred.pc none ≠ .raising
  /-- The owner takes what is deferred only in `try_pop`. -/
  second : s.missed none = false → s.deferred.pc none = .idle ∨ s.deferred.pc none = .raising

/-- What every step keeps. -/
structure Inv (s : State J T) : Prop extends Base s where
  /-- A section that has found nothing was at a moment with nothing in the queue. -/
  noted : (s.deferred.pc none).section? = some none → s.vacant = true

/-! ### The queue of what is deferred -/

section inside

variable {K : Type*} {d : Flagged.State K T} {k j : K} {pc : Flagged.Pc T}

theorem hand_of_free (h : d.lock = none) : hand d = [] := by
  unfold hand
  rw [h]

theorem hand_of_locked (h : d.lock = some k) : hand d = (d.pc k).section?.join.toList := by
  unfold hand
  rw [h]

variable [DecidableEq K]

/-- Whose action it is. -/
def party : Flagged.Action K T → K
  | .push k _ | .raise k | .check k | .remove k | .lower k | .unlock k => k

theorem pc_next_of_ne (a : Flagged.Action K T) (hj : j ≠ party a) :
    (Flagged.next .front d a).pc j = d.pc j := by
  have hne (pc : Flagged.Pc T) : Function.update d.pc (party a) pc j = d.pc j :=
    Function.update_of_ne hj pc d.pc
  cases a with
  | push k v => exact hne _
  | raise k => exact hne _
  | check k => exact hne _
  | remove k =>
      simp only [Flagged.next]
      cases takeFrom .front d.q with
      | none => exact hne _
      | some x => exact hne _
  | lower k =>
      simp only [Flagged.next]
      cases (d.pc k).section? with
      | none => rfl
      | some item => exact hne _
  | unlock k => exact hne _

/-- Only a push has the flag still to raise. -/
theorem raising_of_next {a : Flagged.Action K T}
    (h : (Flagged.next .front d a).pc j = .raising) :
    d.pc j = .raising ∨ ∃ v, a = .push j v := by
  -- Everybody else stays where it is.
  by_cases hj : j = party a
  · subst hj
    have hself (pc : Flagged.Pc T) : Function.update d.pc (party a) pc (party a) = pc :=
      Function.update_self ..
    cases a with
    | push k v => exact .inr ⟨v, rfl⟩
    | raise k => exact absurd ((hself _).symm.trans h) (by simp)
    | check k =>
        have h' := (hself _).symm.trans h
        split at h' <;> cases h'
    | remove k =>
        simp only [Flagged.next] at h
        cases ht : takeFrom .front d.q with
        | none =>
            rw [ht] at h
            exact absurd ((hself _).symm.trans h) (by simp)
        | some x =>
            rw [ht] at h
            have h' := (hself _).symm.trans h
            split at h' <;> cases h'
    | lower k =>
        simp only [Flagged.next] at h
        cases hs : (d.pc k).section? with
        | none =>
            rw [hs] at h
            exact .inl h
        | some item =>
            rw [hs] at h
            exact absurd ((hself _).symm.trans h) (by simp)
    | unlock k => exact absurd ((hself _).symm.trans h) (by simp)
  · exact .inl ((pc_next_of_ne a hj).symm.trans h)

-- A party that has as much in hand as before.
theorem hand_setPc (h : pc.section? = (d.pc k).section?) : hand (d.setPc k pc) = hand d := by
  unfold hand Flagged.State.setPc
  cases d.lock with
  | none => rfl
  | some j =>
      by_cases hjk : j = k
      · subst hjk
        simp only [Function.update_self, h]
      · simp only [Function.update_of_ne hjk]

theorem hand_raise (hg : Flagged.guard d (.raise k)) :
    hand (Flagged.next .front d (.raise k)) = hand d := by
  have hpc : d.pc k = .raising := hg
  have hset : hand (d.setPc k .idle) = hand d := hand_setPc (by rw [hpc]; rfl)
  exact hset

theorem hand_check (hg : Flagged.guard d (.check k)) :
    hand (Flagged.next .front d (.check k)) = hand d := by
  have hpc : d.pc k = .idle := hg
  refine hand_setPc ?_
  rw [hpc]
  split <;> rfl

-- What is removed is in hand.
theorem hand_remove (hg : Flagged.guard d (.remove k)) :
    ((Flagged.next .front d (.remove k)).q ++ hand (Flagged.next .front d (.remove k))).Perm
      (d.q ++ hand d) := by
  obtain ⟨-, hlock⟩ := hg
  rw [hand_of_free hlock, List.append_nil]
  simp only [Flagged.next]
  -- What is removed is in the hand until the unlock.
  cases ht : takeFrom .front d.q with
  | none =>
      have hhand : hand { d.setPc k (.lowering none) with lock := some k } = [] := by
        rw [hand_of_locked (k := k) rfl]
        simp [Flagged.State.setPc, Flagged.Pc.section?]
      rw [hhand, List.append_nil]
      exact List.Perm.refl d.q
  | some x =>
      rcases x with ⟨v, rest⟩
      have hhand : hand
          { d.setPc k (if rest.isEmpty = true then .lowering (some v) else .unlocking (some v)) with
            q := rest
            lock := some k
            taken := v :: d.taken } = [v] := by
        rw [hand_of_locked (k := k) rfl]
        simp only [Flagged.State.setPc, Function.update_self]
        split <;> rfl
      rw [hhand]
      exact (List.perm_append_singleton v rest).trans (Flagged.perm_of_takeFrom ht).symm

theorem hand_lower (hg : Flagged.guard d (.lower k)) :
    (Flagged.next .front d (.lower k)).q = d.q ∧
      hand (Flagged.next .front d (.lower k)) = hand d := by
  have hlower : (d.pc k).lowers = true := hg
  rcases Option.isSome_iff_exists.mp (Flagged.section_of_lowers hlower) with ⟨item, hitem⟩
  simp only [Flagged.next, hitem]
  have hset : hand (d.setPc k (.unlocking item)) = hand d := hand_setPc hitem.symm
  exact ⟨rfl, hset⟩

end inside

/-! ### The invariant -/

section

variable {s : State J T}

theorem inv_init (hi : init s) : Inv s := by
  rcases hi with ⟨hmain, hdeferred, hmissed, hpushed, hreturned⟩
  rcases hdeferred with ⟨hq, hflag, hlock, hpc, hrest⟩
  refine ⟨⟨Flagged.inv_init ⟨hq, hflag, hlock, hpc, hrest⟩, ?_, fun j => ?_, fun h => ?_,
    fun _ => .inl (hpc none)⟩, fun h => ?_⟩
  · rw [hpushed, hreturned, hmain, hq, hand_of_free hlock]
    exact List.Perm.refl _
  · rw [hpc]
    nofun
  · rw [hmissed] at h
    cases h
  · rw [hpc] at h
    cases h

/-- The owner is at what is deferred, in `try_pop`. -/
theorem Base.missed_of_pc (h : Base s) (hidle : s.deferred.pc none ≠ .idle)
    (hraise : s.deferred.pc none ≠ .raising) : s.missed none = true := by
  by_contra hmissed
  rw [Bool.not_eq_true] at hmissed
  rcases h.second hmissed with hpc | hpc
  · exact hidle hpc
  · exact hraise hpc

theorem Base.missed_of_locking (h : Base s) (hpc : s.deferred.pc none = .locking) :
    s.missed none = true := by
  refine h.missed_of_pc ?_ ?_ <;> rw [hpc] <;> nofun

theorem Base.missed_of_section (h : Base s) (hsec : (s.deferred.pc none).section?.isSome = true) :
    s.missed none = true := by
  refine h.missed_of_pc ?_ ?_ <;> intro hpc <;> rw [hpc] at hsec <;> cases hsec

/-- The step inside of an action, where there is one. -/
def inner? : Action J T → Option (Flagged.Action (Option J) T)
  | .defer v => some (.push none v)
  | .raise => some (.raise none)
  | .check k => some (.check k)
  | .remove k => some (.remove k)
  | .lower k => some (.lower k)
  | .unlock k => some (.unlock k)
  | .push _ | .pop | .steal _ | .retry _ => none

theorem guard_inner {a : Action J T} (hg : guard s a) {b : Flagged.Action (Option J) T}
    (hb : inner? a = some b) : Flagged.guard s.deferred b := by
  cases a with
  | defer v =>
      cases hb
      exact hg.2
  | check k =>
      cases hb
      exact hg.2
  | raise | remove k | lower k | unlock k =>
      cases hb
      exact hg
  | push v | pop | steal j | retry j => cases hb

variable [DecidableEq J]

@[simp]
theorem took_deferred (k : Option J) (item : Option T) : (s.took k item).deferred = s.deferred := by
  cases item <;> rfl

@[simp]
theorem took_main (k : Option J) (item : Option T) : (s.took k item).main = s.main := by
  cases item <;> rfl

@[simp]
theorem took_pushed (k : Option J) (item : Option T) : (s.took k item).pushed = s.pushed := by
  cases item <;> rfl

@[simp]
theorem took_returned (k : Option J) (item : Option T) :
    (s.took k item).returned.map Prod.snd = item.toList ++ s.returned.map Prod.snd := by
  cases item <;> rfl

/-- The owner is in none of its operations once `try_take` has returned to it, and is where
    it was when `try_take` returns to a thief. -/
theorem took_missed (k : Option J) (item : Option T) :
    (s.took k item).missed none = if k = none then false else s.missed none := by
  by_cases hk : k = none
  · subst hk
    rw [if_pos rfl]
    cases item <;> simp [State.took]
  · rw [if_neg hk]
    cases item with
    | none => exact Function.update_of_ne (Ne.symm hk) ..
    | some v => exact Function.update_of_ne (Ne.symm hk) ..

theorem missed_update (j : J) (b : Bool) :
    Function.update s.missed (some j) b none = s.missed none :=
  Function.update_of_ne (Option.some_ne_none j).symm ..

-- What an action does to what is deferred is one step of that queue, or nothing.
theorem deferred_act (s : State J T) (a : Action J T) :
    (act s a).deferred = match inner? a with
      | none => s.deferred
      | some b => Flagged.next .front s.deferred b := by
  cases a with
  | push v => rfl
  | defer v => rfl
  | raise => rfl
  | pop =>
      simp only [act]
      cases s.main <;> rfl
  | check k =>
      simp only [act]
      split
      · rfl
      · exact took_deferred k none
  | remove k => rfl
  | lower k => rfl
  | unlock k => exact took_deferred k _
  | steal j =>
      simp only [act]
      cases takeFrom .back s.main <;> rfl
  | retry j => rfl

theorem deferred_inv (h : Base s) {a : Action J T} (hg : guard s a) :
    Flagged.Inv (act s a).deferred := by
  rw [deferred_act]
  cases hb : inner? a with
  | none => exact h.deferred
  | some b => exact Flagged.inv_next .front h.deferred (guard_inner hg hb)

/-- Nothing is lost or duplicated. -/
theorem kept_act (h : Base s) {a : Action J T} (hg : guard s a) :
    (act s a).pushed.Perm ((act s a).returned.map Prod.snd ++
      ((act s a).main ++ ((act s a).deferred.q ++ hand (act s a).deferred))) := by
  have hkept := h.kept
  -- What was pushed is what was returned, what is in the two queues, and what the deferred queue's
  -- holder has in its hand.
  cases a with
  | push v =>
      refine (hkept.cons v).trans ?_
      exact List.perm_middle.symm
  | defer v =>
      -- The owner has the lock to itself: nobody's hand is full.
      have hlock : s.deferred.lock = none := hg.2.2
      have hhand : hand (Flagged.next .front s.deferred (.push none v)) = [] := hand_of_free hlock
      rw [hand_of_free hlock, List.append_nil] at hkept
      change (v :: s.pushed).Perm (s.returned.map Prod.snd ++ (s.main ++ ((s.deferred.q ++ [v]) ++
        hand (Flagged.next .front s.deferred (.push none v)))))
      rw [hhand, List.append_nil, ← List.append_assoc, ← List.append_assoc]
      refine (hkept.cons v).trans ?_
      rw [← List.append_assoc]
      exact (List.perm_append_singleton v _).symm
  | raise =>
      change s.pushed.Perm (s.returned.map Prod.snd ++ (s.main ++ (s.deferred.q ++
        hand (Flagged.next .front s.deferred (.raise none)))))
      rw [hand_raise hg]
      exact hkept
  | pop =>
      simp only [act]
      cases hmain : s.main with
      | nil =>
          rw [hmain] at hkept
          simpa [hmain] using hkept
      | cons v main =>
          rw [hmain] at hkept
          exact hkept.trans List.perm_middle
  | check k =>
      have hhand := hand_check hg.2
      simp only [act]
      split
      · change s.pushed.Perm (s.returned.map Prod.snd ++ (s.main ++ (s.deferred.q ++
          hand (Flagged.next .front s.deferred (.check k)))))
        rw [hhand]
        exact hkept
      · change s.pushed.Perm (s.returned.map Prod.snd ++ (s.main ++ (s.deferred.q ++
          hand (Flagged.next .front s.deferred (.check k)))))
        rw [hhand]
        exact hkept
  | remove k =>
      -- The item moves from the queue to the hand.
      have hmove := (hand_remove hg).symm
      exact hkept.trans ((hmove.append_left s.main).append_left _)
  | lower k =>
      obtain ⟨hq, hhand⟩ := hand_lower hg
      change s.pushed.Perm (s.returned.map Prod.snd ++ (s.main ++
        ((Flagged.next .front s.deferred (.lower k)).q ++
          hand (Flagged.next .front s.deferred (.lower k)))))
      rw [hq, hhand]
      exact hkept
  | unlock k =>
      have hlock := h.deferred.locked k hg.2
      rw [hand_of_locked hlock] at hkept
      simp only [act, took_pushed, took_returned, took_main, took_deferred]
      change s.pushed.Perm (((s.deferred.pc k).section?.join.toList ++ s.returned.map Prod.snd) ++
        (s.main ++ (s.deferred.q ++ hand (Flagged.next .front s.deferred (.unlock k)))))
      have hfree : hand (Flagged.next .front s.deferred (.unlock k)) = [] := hand_of_free rfl
      rw [hfree, List.append_nil]
      -- The item moves from the end of the list to the front.
      refine hkept.trans ?_
      rw [← List.append_assoc, ← List.append_assoc, List.append_assoc _ _ (s.main ++ _)]
      refine List.perm_append_comm.trans ?_
      rw [List.append_assoc]
  | steal j =>
      simp only [act]
      cases ht : takeFrom .back s.main with
      | none => exact hkept
      | some x =>
          rcases x with ⟨v, main⟩
          have hmove := (Flagged.perm_of_takeFrom ht).append_right
            (s.deferred.q ++ hand s.deferred)
          exact (hkept.trans (hmove.append_left _)).trans List.perm_middle
  | retry j => exact hkept

theorem raiser_act (h : Base s) {a : Action J T} (j : J) :
    (act s a).deferred.pc (some j) ≠ .raising := by
  rw [deferred_act]
  cases hb : inner? a with
  | none => exact h.raiser j
  | some b =>
      intro hraise
      rcases raising_of_next hraise with hpc | ⟨v, rfl⟩
      · exact h.raiser j hpc
      · cases a <;> cases hb

-- The deque stays empty: whoever else is at it takes from it.
theorem empty_act (h : Base s) {a : Action J T} (hg : guard s a)
    (hmissed : (act s a).missed none = true) :
    (act s a).main = [] ∧ (act s a).deferred.pc none ≠ .raising := by
  -- The owner is inside `try_pop` before the step, if it has missed by then.
  have hhome : (act s a).missed none = s.missed none → ¬ s.Home := by
    rintro heq ⟨hnot, -⟩
    rw [heq, hnot] at hmissed
    cases hmissed
  have hinner {b : Flagged.Action (Option J) T} (hb : inner? a = some b)
      (hbefore : s.missed none = true) (hpush : ∀ v, b ≠ .push none v) :
      (act s a).deferred.pc none ≠ .raising := by
    rw [deferred_act, hb]
    intro hraise
    rcases raising_of_next hraise with hpc | ⟨v, hv⟩
    · exact (h.empty hbefore).2 hpc
    · exact hpush v hv
  cases a with
  | push v => exact absurd hg (hhome rfl)
  | defer v => exact absurd hg.1 (hhome rfl)
  | raise => exact ⟨(h.empty hmissed).1, hinner rfl hmissed nofun⟩
  | pop =>
      have hidle : s.deferred.pc none ≠ .raising := by
        rw [hg.2]
        nofun
      simp only [act] at hmissed ⊢
      cases hmain : s.main with
      | nil => exact ⟨rfl, hidle⟩
      | cons v main =>
          rw [hmain] at hmissed
          exact absurd hmissed (by simp [hg.1])
  | check k =>
      have hbefore : s.missed none = true := by
        simp only [act] at hmissed
        split at hmissed
        · exact hmissed
        · rw [took_missed] at hmissed
          split at hmissed
          · cases hmissed
          · exact hmissed
      refine ⟨?_, hinner rfl hbefore nofun⟩
      simp only [act]
      split
      · exact (h.empty hbefore).1
      · rw [took_main]
        exact (h.empty hbefore).1
  | remove k => exact ⟨(h.empty hmissed).1, hinner rfl hmissed nofun⟩
  | lower k => exact ⟨(h.empty hmissed).1, hinner rfl hmissed nofun⟩
  | unlock k =>
      have hbefore : s.missed none = true := by
        simp only [act] at hmissed
        rw [took_missed] at hmissed
        split at hmissed
        · cases hmissed
        · exact hmissed
      refine ⟨?_, hinner rfl hbefore nofun⟩
      simp only [act, took_main]
      exact (h.empty hbefore).1
  | steal j =>
      simp only [act] at hmissed ⊢
      cases ht : takeFrom .back s.main with
      | none =>
          rw [ht] at hmissed
          exact h.empty ((missed_update j false).symm.trans hmissed)
      | some x =>
          rw [ht] at hmissed
          have hmain := (h.empty ((missed_update j false).symm.trans hmissed)).1
          rw [hmain, Flagged.takeFrom_nil] at ht
          cases ht
  | retry j => exact h.empty ((missed_update j false).symm.trans hmissed)

theorem second_act (h : Base s) {a : Action J T} (hg : guard s a)
    (hmissed : (act s a).missed none = false) :
    (act s a).deferred.pc none = .idle ∨ (act s a).deferred.pc none = .raising := by
  -- What others do leaves the owner where it is.
  have hother {b : Flagged.Action (Option J) T} (hb : inner? a = some b) (hk : party b ≠ none)
      (hbefore : s.missed none = false) :
      (act s a).deferred.pc none = .idle ∨ (act s a).deferred.pc none = .raising := by
    rw [deferred_act, hb]
    simp only [pc_next_of_ne b hk.symm]
    exact h.second hbefore
  have hidle : Function.update s.deferred.pc none .idle none = .idle := Function.update_self ..
  cases a with
  | push v => exact h.second hmissed
  | defer v =>
      have hraise : Function.update s.deferred.pc none .raising none = .raising :=
        Function.update_self ..
      exact .inr hraise
  | raise => exact .inl hidle
  | pop =>
      simp only [act] at hmissed ⊢
      cases hmain : s.main <;> exact .inl hg.2
  | check k =>
      by_cases hk : k = none
      · subst hk
        simp only [act] at hmissed ⊢
        split
        next hflag =>
          -- It has seen the flag, and is still in `try_pop`.
          rw [if_pos hflag] at hmissed
          have hbefore : s.missed none = true := hg.1
          exact absurd (hbefore.symm.trans hmissed) nofun
        next hflag =>
          rw [took_deferred]
          refine .inl ?_
          simp only [State.inner, Flagged.next, Flagged.State.setPc, Function.update_self,
            if_neg hflag]
      · refine hother rfl hk ?_
        simp only [act] at hmissed
        split at hmissed
        · exact hmissed
        · rw [took_missed, if_neg hk] at hmissed
          exact hmissed
  | remove k =>
      by_cases hk : k = none
      · subst hk
        exact absurd ((h.missed_of_locking hg.1).symm.trans hmissed) nofun
      · exact hother rfl hk hmissed
  | lower k =>
      by_cases hk : k = none
      · subst hk
        have hbefore := h.missed_of_section (Flagged.section_of_lowers hg)
        exact absurd (hbefore.symm.trans hmissed) nofun
      · exact hother rfl hk hmissed
  | unlock k =>
      by_cases hk : k = none
      · subst hk
        simp only [act, took_deferred]
        exact .inl hidle
      · refine hother rfl hk ?_
        simp only [act] at hmissed
        rw [took_missed, if_neg hk] at hmissed
        exact hmissed
  | steal j =>
      have hbefore : s.missed none = false := by
        simp only [act] at hmissed
        cases ht : takeFrom .back s.main <;> rw [ht] at hmissed <;>
          exact (missed_update j false).symm.trans hmissed
      simp only [act]
      cases takeFrom .back s.main <;> exact h.second hbefore
  | retry j => exact h.second ((missed_update j false).symm.trans hmissed)

theorem base_act (h : Base s) {a : Action J T} (hg : guard s a) : Base (act s a) :=
  ⟨deferred_inv h hg, kept_act h hg, raiser_act h, empty_act h hg, second_act h hg⟩

/-- The owner has found nothing, now or before. -/
theorem section_of_act {a : Action J T} (hg : guard s a)
    (h : ((act s a).deferred.pc none).section? = some none) :
    ((s.deferred.pc none).section? = some none ∧ a.begins = false) ∨
      (a = .remove none ∧ s.deferred.q = []) := by
  -- A thief's step leaves the owner where it is.
  have hinner {b : Flagged.Action (Option J) T} (hb : inner? a = some b) (hk : party b ≠ none) :
      (s.deferred.pc none).section? = some none := by
    rw [deferred_act, hb] at h
    simp only [pc_next_of_ne b hk.symm] at h
    exact h
  have hset (pc : Flagged.Pc T) : Function.update s.deferred.pc none pc none = pc :=
    Function.update_self ..
  -- The owner finds nothing by removing from an empty queue.
  cases a with
  | push v => exact .inl ⟨h, rfl⟩
  | defer v => exact absurd ((congrArg Flagged.Pc.section? (hset _)).symm.trans h) (by rintro ⟨⟩)
  | raise => exact absurd ((congrArg Flagged.Pc.section? (hset _)).symm.trans h) (by rintro ⟨⟩)
  | pop =>
      have hpc : (act s .pop).deferred.pc none = .idle := by
        rw [deferred_act]
        exact hg.2
      rw [hpc] at h
      cases h
  | check k =>
      -- The owner's own steps in the deferred queue end its section, or begin one.
      by_cases hk : k = none
      · subst hk
        rw [deferred_act] at h
        simp only [inner?, Flagged.next, Flagged.State.setPc, hset] at h
        by_cases hflag : s.deferred.nonEmpty = true
        · rw [if_pos hflag] at h
          cases h
        · rw [if_neg hflag] at h
          cases h
      · exact .inl ⟨hinner rfl hk, rfl⟩
  | remove k =>
      by_cases hk : k = none
      · subst hk
        refine .inr ⟨rfl, ?_⟩
        rw [deferred_act] at h
        simp only [inner?, Flagged.next] at h
        cases ht : takeFrom .front s.deferred.q with
        | none => exact Flagged.eq_nil_of_takeFrom ht
        | some x =>
            rw [ht] at h
            simp only [Flagged.State.setPc, hset] at h
            by_cases hrest : x.2.isEmpty = true
            · rw [if_pos hrest] at h
              cases h
            · rw [if_neg hrest] at h
              cases h
      · exact .inl ⟨hinner rfl hk, rfl⟩
  | lower k =>
      by_cases hk : k = none
      · subst hk
        refine .inl ⟨?_, rfl⟩
        rcases Option.isSome_iff_exists.mp (Flagged.section_of_lowers hg) with ⟨item, hitem⟩
        rw [deferred_act] at h
        simp only [inner?, Flagged.next, hitem] at h
        have h' := (congrArg Flagged.Pc.section? (hset _)).symm.trans h
        exact hitem.trans h'
      · exact .inl ⟨hinner rfl hk, rfl⟩
  | unlock k =>
      by_cases hk : k = none
      · subst hk
        rw [deferred_act] at h
        exact absurd ((congrArg Flagged.Pc.section? (hset _)).symm.trans h) (by rintro ⟨⟩)
      · exact .inl ⟨hinner rfl hk, rfl⟩
  | steal j =>
      rw [deferred_act] at h
      exact .inl ⟨h, rfl⟩
  | retry j => exact .inl ⟨h, rfl⟩

/-- Every step keeps the invariant. -/
theorem inv_next (h : Inv s) {a : Action J T} (hg : guard s a) : Inv (next s a) := by
  rcases base_act h.toBase hg with ⟨hdeferred, hkept, hraiser, hempty, hsecond⟩
  refine ⟨⟨hdeferred, hkept, hraiser, hempty, hsecond⟩, fun hnone => ?_⟩
  change ((act s a).deferred.pc none).section? = some none at hnone
  change ((!a.begins && s.vacant) || (act s a).holdsNothing) = true
  rcases section_of_act hg hnone with ⟨hbefore, hbegins⟩ | ⟨rfl, hq⟩
  · rw [hbegins, h.noted hbefore]
    rfl
  · -- The deque was empty before, and there is nothing in the section either.
    have hmain := (h.empty (h.missed_of_locking hg.1)).1
    have hafter : (act s (.remove none)).holdsNothing = true := by
      simp only [State.holdsNothing, act, State.inner, Flagged.next, Flagged.State.setPc, hq,
        Flagged.takeFrom, hmain]
      rfl
    rw [hafter, Bool.or_true]

theorem Inv.of_reachable (h : (system J T).Reachable s) : Inv s :=
  h.induct (fun _ hi => inv_init hi) fun _ _ h hg => inv_next h hg

/-- Where `try_pop` returns `None` nothing was queued at some moment. -/
theorem Inv.vacant_of_none (h : Inv s) {a : Action J T} (hg : guard s a)
    (hnone : ReturnsNone s a) : (next s a).vacant = true := by
  rcases a with v | v | _ | _ | k | k | k | k | j | j
  case check =>
    rcases k with _ | j
    · -- The flag is down, and the store that would raise it is the owner's own.
      have hmissed : s.missed none = true := hg.1
      have hq : s.deferred.q = [] := by
        by_contra hne
        rcases h.deferred.shown hne with hflag | ⟨k, hk⟩
        · exact absurd (hflag.symm.trans hnone) nofun
        · rcases k with _ | j
          · exact (h.empty hmissed).2 hk
          · exact h.raiser j hk
      have hflag : ¬ s.deferred.nonEmpty = true := by
        rw [Bool.not_eq_true]
        exact hnone
      have hafter : (act s (.check none)).holdsNothing = true := by
        simp only [act]
        rw [if_neg hflag]
        simp only [State.holdsNothing, took_main, took_deferred]
        change (s.main.isEmpty && s.deferred.q.isEmpty) = true
        rw [(h.empty hmissed).1, hq]
        rfl
      change (_ || (act s (.check none)).holdsNothing) = true
      rw [hafter, Bool.or_true]
    · cases hnone
  case unlock =>
    rcases k with _ | j
    · -- It has locked and found nothing, which was noted then.
      have hvacant := h.noted hnone
      change ((!Action.begins (J := J) (T := T) (.unlock none) && s.vacant) || _) = true
      rw [hvacant]
      rfl
    · cases hnone
  all_goals cases hnone

/-! ### The owner alone -/

/-- What the owner's operations look at. -/
def State.view (s : State J T) : HybridRunQueue T where
  main := s.main
  deferred := { nonEmpty := s.deferred.nonEmpty, q := s.deferred.q }

/-- The owner is in none of its operations, and nobody has the lock. -/
def State.Alone (s : State J T) : Prop :=
  s.Home ∧ s.deferred.lock = none

/-- The owner's steps at what is deferred. -/
def takeScript (d : Flagged.State (Option J) T) : List (Action J T) :=
  if d.nonEmpty = true then
    if d.q.tail.isEmpty = true then [.check none, .remove none, .lower none, .unlock none]
    else [.check none, .remove none, .unlock none]
  else [.check none]

/-- The steps of one operation of the owner, with nobody else about. -/
def script (s : State J T) : Op T → List (Action J T)
  | .push v => [.push v]
  | .defer v => [.defer v, .raise]
  | .tryPop => .pop :: if s.main.isEmpty = true then takeScript s.deferred else []

/-- What an operation returns to the owner. -/
def popped (h : HybridRunQueue T) : Op T → List T
  | .tryPop => h.tryPop.1.toList
  | .push _ | .defer _ => []

/-- The steps that the owner takes from a state do what its operation does. -/
structure Follows (s : State J T) (o : Op T) : Prop where
  legal : (system J T).Legal s (script s o)
  alone : ((system J T).run s (script s o)).Alone
  view : ((system J T).run s (script s o)).view = (hybridRunQueue T).after s.view o
  returned : ((system J T).run s (script s o)).returned =
    (popped s.view o).map (none, ·) ++ s.returned

-- Where the deque is empty: the flag is down, or it is up with no item, the last one, or
-- more behind the lock.
theorem follows_take (h : s.Alone) (hmain : s.main = []) : Follows s .tryPop := by
  rcases s with ⟨main, ⟨q, nonEmpty, lock, pc, dpushed, dtaken⟩, missed, pushed, returned, vacant⟩
  rcases h with ⟨⟨hmissed, hpc⟩, hlock⟩
  simp only at hmissed hpc hlock hmain
  subst hmain hlock
  -- With the flag down the call ends before the lock.
  cases nonEmpty with
  | false =>
      constructor <;>
        simp [script, takeScript, System.Legal, System.run, system, guard, next, act, popped,
          State.inner, State.Home, State.took, State.Alone, State.view, Flagged.next,
          Flagged.guard, Flagged.State.setPc, hybridRunQueue, WorkerRunQueue.after,
          HybridRunQueue.tryPop, Deferred.tryTake, hmissed, hpc]
  | true =>
      rcases q with _ | ⟨v, _ | ⟨u, rest⟩⟩ <;> constructor <;>
        simp [script, takeScript, System.Legal, System.run, system, guard, next, act, popped,
          State.inner, State.Home, State.took, State.Alone, State.view, Flagged.next,
          Flagged.guard, Flagged.State.setPc, Flagged.Pc.lowers, Flagged.Pc.section?, takeFrom,
          hybridRunQueue, WorkerRunQueue.after, HybridRunQueue.tryPop, Deferred.tryTake, hmissed,
          hpc]

/-- Without thieves the steps of an operation do what `hybridRunQueue` says. -/
theorem view_script (h : s.Alone) (o : Op T) : Follows s o := by
  have hlock : s.deferred.lock = none := h.2
  -- Pushes and defers are one or two steps; a `try_pop` may go on to the deferred queue.
  cases o with
  | push v => exact ⟨⟨h.1, trivial⟩, h, rfl, rfl⟩
  | defer v =>
      have hpc (pc : Flagged.Pc T) : Function.update s.deferred.pc none pc none = pc :=
        Function.update_self ..
      have hidle : ((system J T).run s (script s (.defer v))).deferred.pc none = .idle :=
        Function.update_self none _ (Function.update s.deferred.pc none .raising)
      exact ⟨⟨⟨h.1, h.1.2, hlock⟩, hpc _, trivial⟩, ⟨⟨h.1.1, hidle⟩, hlock⟩, rfl, rfl⟩
  | tryPop =>
      cases hmain : s.main with
      | nil => exact follows_take h hmain
      | cons v main =>
          have hscript : script s .tryPop = [.pop] := by
            simp [script, hmain]
          have hpop : act s .pop = { s with main, returned := (none, v) :: s.returned } := by
            simp only [act, hmain]
          constructor
          · rw [hscript]
            exact ⟨h.1, trivial⟩
          · rw [hscript]
            change (next s .pop).Alone
            unfold next
            rw [hpop]
            exact h
          · rw [hscript]
            change (next s .pop).view = _
            unfold next
            rw [hpop]
            simp [State.view, hybridRunQueue, WorkerRunQueue.after, HybridRunQueue.tryPop, hmain]
          · rw [hscript]
            change (next s .pop).returned = _
            unfold next
            rw [hpop]
            simp [State.view, popped, HybridRunQueue.tryPop, hmain]

/-- The owner's operations one after the other, with nobody else about. -/
def ownerRun (s : State J T) : List (Op T) → State J T
  | [] => s
  | o :: ops => ownerRun ((system J T).run s (script s o)) ops

theorem owner_run : ∀ (ops : List (Op T)) (s : State J T), s.Alone →
    (ownerRun s ops).Alone ∧ (ownerRun s ops).view = (hybridRunQueue T).run s.view ops := by
  intro ops
  induction ops with
  | nil =>
      intro s h
      exact ⟨h, rfl⟩
  | cons o ops ih =>
      intro s h
      have hfollows := view_script h o
      rcases ih _ hfollows.alone with ⟨halone, hview⟩
      refine ⟨halone, hview.trans ?_⟩
      rw [hfollows.view]
      rfl

end

/-- Without a thief the two run queues return the same items and hold the same. What is
    pushed comes out before everything queued at the time, and what is deferred after it;
    and this queue is what the steps of the owner's operations make of the state with
    thieves, as long as no thief takes one. With any number of thieves every item that was
    pushed or deferred has been returned once, is inside, or is with the `try_take` that has
    the lock, and where the owner's `try_pop` returns `None` the queue has held nothing at
    some moment of the call. -/
theorem hybrid_agrees {J T : Type*} [DecidableEq J] :
    (∀ ops : List (Op T),
      let h := (hybridRunQueue T).run (HybridRunQueue.empty T) ops
      (hybridRunQueue T).pops (HybridRunQueue.empty T) ops = (spinRunQueue T).pops [] ops ∧
        h.content = (spinRunQueue T).run [] ops ∧
        ∀ (v : T) (ops' : List (Op T)),
          InTurn (hybridRunQueue T) HybridRunQueue.content ((hybridRunQueue T).push h v) v
            h.content ops' ∧
          InTurn (hybridRunQueue T) HybridRunQueue.content ((hybridRunQueue T).defer h v) v []
            ops') ∧
      (∀ s : State J T, s.Alone → ∀ ops : List (Op T),
        (ownerRun s ops).Alone ∧ (ownerRun s ops).view = (hybridRunQueue T).run s.view ops) ∧
      ∀ s : State J T, (system J T).Reachable s →
        (s.pushed : Multiset T) =
            s.returned.map Prod.snd + s.main + s.deferred.q + hand s.deferred ∧
          ∀ a, guard s a → ReturnsNone s a → (next s a).vacant = true := by
  refine ⟨fun ops => ?_, fun s halone ops => owner_run ops s halone, fun s hr => ?_⟩
  · intro h
    -- The owner alone: its calls give what the calls of one queue give.
    rcases hybrid_run ops with ⟨hpops, hcontent, hshown⟩
    refine ⟨hpops, hcontent, fun v ops' => ⟨?_, ?_⟩⟩
    · exact @hybrid_inTurn _ ((hybridRunQueue T).push h v) [] h.content v ⟨rfl, hshown⟩ ops'
    · refine @hybrid_inTurn _ _ h.content [] v ⟨?_, Deferred.Shown.push _ v⟩ ops'
      exact (List.append_assoc ..).symm
  · have hinv := Inv.of_reachable hr
    refine ⟨?_, fun a hg hnone => hinv.vacant_of_none hg hnone⟩
    simp only [Multiset.coe_add, List.append_assoc]
    exact Multiset.coe_eq_coe.mpr hinv.kept

/-- The owner defers one item and pushes another. A thief takes the first. The owner takes
    the second, and finds nothing. -/
def robbed : List (Action (Fin 2) ℕ) :=
  [.defer 7, .raise, .push 8, .check (some 0), .remove (some 0), .lower (some 0),
    .unlock (some 0), .check (some 1), .retry 1, .pop, .pop]

/-- A queue that nobody has used. -/
def empty (J T : Type*) : State J T where
  main := []
  deferred := Flagged.empty (Option J) T
  missed _ := false
  pushed := []
  returned := []
  vacant := false

theorem hybrid_agrees_robbed :
    let s := (system (Fin 2) ℕ).run (empty (Fin 2) ℕ) robbed
    (s.pushed : Multiset ℕ) = s.returned.map Prod.snd + s.main + s.deferred.q + hand s.deferred ∧
      s.returned = [(none, 8), (some 0, 7)] ∧ ReturnsNone s (.check none) ∧
        (next s (.check none)).vacant = true := by
  intro s
  have hr : (system (Fin 2) ℕ).Reachable s :=
    System.reachable_run _ robbed _
      ⟨rfl, ⟨rfl, rfl, rfl, fun _ => rfl, rfl, rfl⟩, fun _ => rfl, rfl, rfl⟩ (by decide +kernel)
  have hnone : ReturnsNone s (.check none) := by
    change s.deferred.nonEmpty = false
    decide +kernel
  rcases (hybrid_agrees (J := Fin 2) (T := ℕ)).2.2 s hr with ⟨hkept, hvacant⟩
  exact ⟨hkept, by decide +kernel, hnone, hvacant _ (by decide +kernel) hnone⟩

end Thieves

end Cmpth

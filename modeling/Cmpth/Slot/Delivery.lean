import Cmpth.Core.System
import Cmpth.Slot.Tagged
import Mathlib.Logic.Function.Basic

/-!
# Delivery through a Wait Slot

A wait slot holds at most one waiter: a ULT's continuation, the waker of an
asynchronous task, or the parker of an OS thread. Whoever takes it out resumes it,
and how depends on what it finds. `DualResumable` tells the three by the tag of one
word. `OsSuspendedThread` holds parkers only, under a mutex.

Every thread has a slot of its own here, in which it waits at most once, and does one
operation. `notify`, `enter` and `swap` name the thread whose slot they take from. To
`swap` is to do both, so that a thread may wait in its own slot while it still holds
what it took from another's. A ULT that swaps takes first, and is published once its
context is saved. An OS thread is published first.

A ULT that waits conditionally, with `f` false, takes back what it has published and
panics if it is gone. The callers have to see to it that nobody notifies it then. This
is `Alone`, which is a condition on the step that takes back. An OS thread that finds
its parker gone waits for the wake.

A `notify` may come before there is anything to take. It does nothing then, and the
waiter stays in its slot for the next one. Which takes came early is remembered.

## Main definitions

* `Impl`: An implementation of wait slots.
* `dualResumable`, `osSuspendedThread`: The two of the code.
* `Program`: What each thread does.
* `system`: The program as a guarded transition system.
* `Alone`: A ULT that cancels is not notified at the same time.
* `Settled`: Nothing is left to be done at a slot.
* `Delivers`: What is asked of a slot.

## Theorems

* `wakeRaw_tag`, `enter_tag`, `take_word`: What is read back of a word that was stored.
* `deliver_eq`: What a thread takes out of a slot, it resumes as it should.
* `before_eq`: A program begins at once, or after it has published.
* `Sound.change`: What is known of a thread does not depend on how far its waiting is.
* `Where.congr`: A waiter whose slot is not touched, and of whom nobody has begun or ended to take
  hold, is where it was.
* `Inv.take_isSome`: What was published is found again.
* `holds_update_ne`: What another thread does is not to take hold.
* `holds_update`: A thread that neither held anything nor does now leaves it at that.
* `holds_update_target`: Who takes from one slot does not hold what is in another.
* `inv_publish`, `inv_run`, `inv_retract`, `inv_take`, `inv_hand`, `inv_resume`, `inv_reset`: The
  actions, one by one.
* `Where.slot_eq`: Only a slot that is full has something to take.
* `Inv.slot_empty`: What is not full is empty.
* `Inv.change`: How far a waiter is with its slot may change once it has been woken.
* `inv_next`: Every step keeps the invariant.
* `inv_init`, `Inv.of_reachable`: The invariant holds in every state.
* `Inv.moves`: Whoever is not through can take a step.
* `Inv.delivers`: What the invariant says of a slot.
* `slots_deliver`: Both implementations deliver exactly once.
* `deliver_chained`: A chain of wakes.
* `early_notify`: A wake that comes before the waiter resumes nobody.
-/

namespace Cmpth

namespace Slot

/-- What waits in a slot. -/
inductive Kind where
  | ult
  | async
  | os
  deriving DecidableEq, Repr

/-- How a waiter is resumed. -/
inductive Delivery where
  /-- `push_continuation`. -/
  | push
  /-- `suspend_to_cont`. -/
  | jump
  /-- `Waker::wake`. -/
  | wake
  /-- The parker is made ready and its thread woken. -/
  | unpark
  deriving DecidableEq, Repr

/-- How a plain wake resumes a waiter. -/
def Kind.woken : Kind → Delivery
  | .ult => .push
  | .async => .wake
  | .os => .unpark

/-- How a ULT that enters its slot does. -/
def Kind.entered : Kind → Delivery
  | .ult => .jump
  | .async => .wake
  | .os => .unpark

/-- Wait slots with contents `V`, in which pointers `P` are published. What is taken
    is an `R`, from which the address, an `A`, is read. -/
structure Impl (V P R A : Type*) where
  admits : Kind → Prop
  empty : V
  publish : Kind → P → V
  take : V → Option R
  wakeRaw : R → Delivery × A
  /-- `enter` by a ULT, and the same branches in `swap`. -/
  enter : R → Delivery × A
  /-- `wait_with` empties the slot again after the wake. -/
  resets : Bool
  addr : P → A
  take_empty : take empty = none
  take_publish (k : Kind) (p : P) (hk : admits k) : ∃ r, take (publish k p) = some r ∧
    wakeRaw r = (k.woken, addr p) ∧ enter r = (k.entered, addr p)

/-- `ASYNC_TAG` and `OS_TAG`, and 0 for a continuation. -/
def Kind.tag : Kind → Tag 2
  | .ult => ⟨0, by decide⟩
  | .async => ⟨1, by decide⟩
  | .os => ⟨2, by decide⟩

/-- `wake` of what was taken: how it is delivered, by its tag. -/
def wakeRaw : Word × Word → Delivery × Word
  | (tag, raw) =>
      if tag = Kind.async.tag.val then (.wake, intoTyped 2 raw)
      else if tag = Kind.os.tag.val then (.unpark, intoTyped 2 raw)
      else (.push, intoTyped 2 raw)

/-- `switch_to` of what was taken: a ULT is entered at once, the others are woken. -/
def enter : Word × Word → Delivery × Word
  | (tag, raw) => if tag = 0 then (.jump, intoTyped 2 raw) else wakeRaw (tag, raw)

theorem wakeRaw_tag (k : Kind) (raw : Word) :
    wakeRaw (k.tag.val, raw) = (k.woken, intoTyped 2 raw) := by
  cases k <;> rfl

theorem enter_tag (k : Kind) (raw : Word) :
    enter (k.tag.val, raw) = (k.entered, intoTyped 2 raw) := by
  cases k <;> rfl

/-- Three kinds of waiters in a tagged word. -/
def dualResumable : Impl Word (Ptr 2) (Word × Word) Word where
  admits _ := True
  empty := empty
  publish k p := publish p k.tag
  take := take 2
  wakeRaw := wakeRaw
  enter := enter
  resets := false
  addr := Ptr.addr
  take_empty := take_empty 2
  take_publish k p _ := by
    refine ⟨_, take_publish p k.tag, ?_, ?_⟩
    · rw [wakeRaw_tag, intoTyped_publish]
    · rw [enter_tag, intoTyped_publish]

/-- OS threads only. `enter` is `notify`. -/
def osSuspendedThread (P : Type*) : Impl (Option P) P P P where
  admits k := k = .os
  empty := none
  publish _ p := some p
  take g := g
  wakeRaw p := (.unpark, p)
  enter p := (.unpark, p)
  resets := true
  addr p := p
  take_empty := rfl
  take_publish k p hk := ⟨p, rfl, by rw [hk]; rfl, by rw [hk]; rfl⟩

/-- What a thread does. -/
inductive Op (T : Type*) where
  | wait
  | waitCond
  | register
  | notify (n : T)
  | enter (n : T)
  | swap (n : T)
  deriving DecidableEq, Repr

section

variable {T : Type*}

/-- The thread whose slot is taken from. -/
def Op.target : Op T → Option T
  | .notify n | .enter n | .swap n => some n
  | .wait | .waitCond | .register => none

/-- It waits in a slot of its own. -/
def Op.waits : Op T → Bool
  | .wait | .waitCond | .register | .swap _ => true
  | .notify _ | .enter _ => false

/-- From a ULT it jumps to a continuation. -/
def Op.jumps : Op T → Bool
  | .enter _ | .swap _ => true
  | .wait | .waitCond | .register | .notify _ => false

/-- What may be called from a thread of a kind. The poll of an asynchronous task has no
    stack to leave, which `assert_on_real_ult` checks. -/
def Op.allowed : Kind → Op T → Bool
  | .async, .register | .async, .notify _ => true
  | .async, _ => false
  | _, .register => false
  | _, _ => true

/-- How far a thread's operation is. For a ULT this goes on in its callback, on another
    stack, when its continuation may have been resumed already. -/
inductive Act (R : Type*) where
  | start
  /-- It is in its slot, and `f` is about to be called. -/
  | published
  /-- `f` was false. -/
  | retracting
  | holding (r : R)
  /-- Through. `early` if it found a slot in which nobody had waited yet. -/
  | ended (early : Bool)
  | panicked
  deriving DecidableEq, Repr

/-- What a thread has taken and not resumed yet. -/
def Act.held {R : Type*} : Act R → Option R
  | .holding r => some r
  | .start | .published | .retracting | .ended _ | .panicked => none

/-- The thread's operation is at its end. -/
def Act.isOver {R : Type*} : Act R → Bool
  | .ended _ => true
  | .start | .published | .retracting | .holding _ | .panicked => false

/-- How far a thread is with its own slot. -/
inductive Wait where
  | idle
  | waiting
  /-- Resumed, and about to reset the slot. -/
  | woken
  | returned
  | cancelled
  deriving DecidableEq, Repr

end

/-- What each thread does, of which kind it is, and what it publishes. -/
structure Program {V P R A : Type*} (I : Impl V P R A) (T : Type*) where
  kind : T → Kind
  op : T → Op T
  ptr : T → P
  allowed : ∀ t, (op t).allowed (kind t) = true
  admitted : ∀ t, (op t).waits = true → I.admits (kind t)

/-- The slots, what the threads do, and what has been done to whoever waits in each slot
    and by whom. -/
structure State (T V R A : Type*) where
  slot : T → V
  act : T → Act R
  wait : T → Wait
  delivered : T → List (T × Delivery × A)
  resumed : T → ℕ

/-- The accesses to slots, and the steps between them. -/
inductive Action (T : Type*) where
  /-- It stores itself in its slot. -/
  | publish (t : T)
  /-- `f` returns. -/
  | run (t : T) (b : Bool)
  /-- It takes itself out again. -/
  | retract (t : T)
  /-- It takes what is in the target's slot. -/
  | take (t : T)
  /-- It resumes what it has taken. -/
  | hand (t : T)
  /-- A waiter that was resumed goes on. -/
  | resume (t : T)
  | reset (t : T)
  deriving DecidableEq, Repr

/-- Who acts. -/
def Action.thread {T : Type*} : Action T → T
  | .publish t | .run t _ | .retract t | .take t | .hand t | .resume t | .reset t => t

variable {T V P R A : Type*} {I : Impl V P R A}

/-- Nobody has done anything yet. -/
structure Start (I : Impl V P R A) (s : State T V R A) : Prop where
  slot : ∀ t, s.slot t = I.empty
  act : ∀ t, s.act t = .start
  wait : ∀ t, s.wait t = .idle
  delivered : ∀ t, s.delivered t = []
  resumed : ∀ t, s.resumed t = 0

namespace Program

variable (G : Program I T)

/-- What the thread publishes. -/
def word (t : T) : V := I.publish (G.kind t) (G.ptr t)

/-- Where in its operation a thread takes from the target's slot. -/
def before (t : T) : Act R :=
  match G.op t, G.kind t with
  | .swap _, .os => .published
  | _, _ => .start

/-- How a thread resumes what it has taken. -/
def deliver (t : T) (r : R) : Delivery × A :=
  if (G.op t).jumps = true ∧ G.kind t = .ult then I.enter r else I.wakeRaw r

/-- How it should resume the waiter in a slot. -/
def fitting (t n : T) : Delivery :=
  if (G.op t).jumps = true ∧ G.kind t = .ult then (G.kind n).entered else (G.kind n).woken

/-- What a thread takes out of a slot, it resumes as it should. -/
theorem deliver_eq {n : T} (hn : (G.op n).waits = true) {r : R}
    (hr : I.take (G.word n) = some r) (t : T) :
    G.deliver t r = (G.fitting t n, I.addr (G.ptr n)) := by
  obtain ⟨r', hr', hwake, henter⟩ := I.take_publish (G.kind n) (G.ptr n) (G.admitted n hn)
  have hsame : r = r' := Option.some.inj (hr.symm.trans hr')
  rw [hsame, deliver, fitting]
  split
  · exact henter
  · exact hwake

theorem take_word {n : T} (hn : (G.op n).waits = true) :
    ∃ r, I.take (G.word n) = some r := by
  obtain ⟨r, hr, -⟩ := I.take_publish (G.kind n) (G.ptr n) (G.admitted n hn)
  exact ⟨r, hr⟩

/-- When an action is enabled. -/
def guard (s : State T V R A) : Action T → Prop
  | .publish t => s.wait t = .idle ∧ (G.op t).waits = true ∧
      (s.act t = .start ∧ ((G.op t).target = none ∨ G.before t = .published) ∨
        (s.act t).held ≠ none)
  | .run t b => s.act t = .published ∧ (G.op t).target = none ∧ (b = true ∨ G.op t = .waitCond)
  | .retract t => s.act t = .retracting
  | .take t => (G.op t).target ≠ none ∧ s.act t = G.before t
  | .hand t => (s.act t).held ≠ none ∧ ((G.op t).waits = true → s.wait t ≠ .idle)
  -- An OS thread is resumed where it waits, and it does its operation there before.
  | .resume t => s.resumed t < (s.delivered t).length ∧
      (G.kind t = .os → s.wait t = .waiting ∧ (s.act t).isOver = true)
  | .reset t => s.wait t = .woken

instance [DecidableEq T] [DecidableEq R] (s : State T V R A) :
    ∀ a : Action T, Decidable (G.guard s a)
  | .publish _ | .run .. | .take _ | .hand _ | .resume _ =>
      inferInstanceAs (Decidable (_ ∧ _))
  | .retract _ | .reset _ => inferInstanceAs (Decidable (_ = _))

section

variable [DecidableEq T]

/-- The state an action leads to. -/
def next (s : State T V R A) : Action T → State T V R A
  | .publish t =>
      { s with
        slot := Function.update s.slot t (G.word t)
        wait := Function.update s.wait t .waiting
        act := if (s.act t).held = none then Function.update s.act t .published else s.act }
  | .run t b =>
      { s with act := Function.update s.act t (if b = true then .ended false else .retracting) }
  | .retract t =>
      match I.take (s.slot t) with
      | some _ =>
          { s with
            slot := Function.update s.slot t I.empty
            wait := Function.update s.wait t .cancelled
            act := Function.update s.act t (.ended false) }
      | none =>
          { s with
            act := Function.update s.act t (if G.kind t = .ult then .panicked else .ended false) }
  | .take t =>
      match (G.op t).target with
      | some n =>
          { s with
            slot := Function.update s.slot n I.empty
            act := Function.update s.act t (match I.take (s.slot n) with
              | some r => .holding r
              | none => .ended (s.wait n = .idle)) }
      | none => s
  | .hand t =>
      match (G.op t).target, (s.act t).held with
      | some n, some r =>
          { s with
            delivered := Function.update s.delivered n ((t, G.deliver t r) :: s.delivered n)
            act := Function.update s.act t (.ended false) }
      | _, _ => s
  | .resume t =>
      { s with
        resumed := Function.update s.resumed t (s.resumed t + 1)
        wait := Function.update s.wait t
          (if I.resets = true ∧ G.op t ≠ .waitCond then .woken else .returned) }
  | .reset t =>
      { s with
        slot := Function.update s.slot t I.empty
        wait := Function.update s.wait t .returned }

/-- Threads that wait and wake, as a guarded transition system. -/
def system : System (State T V R A) (Action T) where
  init := Start I
  guard := G.guard
  next := G.next

end

instance [DecidableEq T] [DecidableEq R] (s : State T V R A) (a : Action T) :
    Decidable ((G.system).guard s a) :=
  inferInstanceAs (Decidable (G.guard s a))

/-- A ULT that cancels finds what it has published: nobody notifies it at the same
    time. -/
def Alone (s : State T V R A) : Action T → Prop
  | .retract t => G.kind t = .ult → (I.take (s.slot t)).isSome = true
  | _ => True

instance (s : State T V R A) : ∀ a : Action T, Decidable (G.Alone s a)
  | .retract _ => inferInstanceAs (Decidable (_ → _))
  | .publish _ | .run .. | .take _ | .hand _ | .resume _ | .reset _ =>
      inferInstanceAs (Decidable True)

/-- Neither the waiter in a slot nor anybody who takes from it has anything left to
    do. -/
def Settled (s : State T V R A) (n : T) : Prop :=
  ∀ a : Action T, a.thread = n ∨ (G.op a.thread).target = some n → ¬ G.guard s a

/-- What is asked of a slot, in any state. -/
structure Delivers (s : State T V R A) (n : T) : Prop where
  /-- Nobody is resumed without a wake, and none is woken twice. -/
  once : s.resumed n ≤ (s.delivered n).length ∧ (s.delivered n).length ≤ 1
  /-- The waiter is the one who was published, and is resumed as its kind asks for. -/
  fits : ∀ d ∈ s.delivered n, (G.op d.1).target = some n ∧
    d.2 = (G.fitting d.1 n, I.addr (G.ptr n))
  /-- A waiter that has cancelled is not woken. -/
  cancelled : s.wait n = .cancelled → G.op n = .waitCond ∧ s.delivered n = [] ∧ s.resumed n = 0
  no_panic : s.act n ≠ .panicked
  /-- No waiter is lost: it is in the slot, somebody has it, or it was woken. -/
  kept : s.wait n = .waiting → s.slot n = G.word n ∨
    (∃ t r, (G.op t).target = some n ∧ s.act t = .holding r ∧ I.take (G.word n) = some r) ∨
    s.delivered n ≠ []
  /-- In the end it has cancelled, or was resumed once, and the slot is empty. Or else
      everybody came before it, and it is still there. -/
  settled : G.Settled s n →
    s.wait n = .idle ∧ (G.op n).target ≠ none ∨
    s.wait n = .cancelled ∧ s.slot n = I.empty ∨
    s.wait n = .returned ∧ s.resumed n = 1 ∧ (s.delivered n).length = 1 ∧ s.slot n = I.empty ∨
    s.wait n = .waiting ∧ s.slot n = G.word n ∧ s.resumed n = 0 ∧
      ∀ t, (G.op t).target = some n → s.act t = .ended true

/-- Somebody has taken from a slot, and not resumed what was there. -/
def Holds (act : T → Act R) (n t : T) (r : R) : Prop :=
  (G.op t).target = some n ∧ act t = .holding r

/-- Where the waiter of a slot is. -/
inductive Where (s : State T V R A) (n : T) : Prop where
  | idle (hw : s.wait n = .idle) (hslot : s.slot n = I.empty) (hd : s.delivered n = [])
      (hr : s.resumed n = 0) (hh : ∀ t r, ¬ G.Holds s.act n t r)
  | full (hw : s.wait n = .waiting) (hslot : s.slot n = G.word n) (hd : s.delivered n = [])
      (hr : s.resumed n = 0) (hh : ∀ t r, ¬ G.Holds s.act n t r)
  | held (j : T) (r : R) (hw : s.wait n = .waiting) (hslot : s.slot n = I.empty)
      (hd : s.delivered n = []) (hr : s.resumed n = 0) (hj : G.Holds s.act n j r)
      (htake : I.take (G.word n) = some r) (hh : ∀ t r, G.Holds s.act n t r → t = j)
  | served (j : T)
      (hw : s.wait n = .waiting ∧ s.resumed n = 0 ∨
        (s.wait n = .woken ∨ s.wait n = .returned) ∧ s.resumed n = 1)
      (hslot : s.slot n = I.empty) (hj : (G.op j).target = some n)
      (hd : s.delivered n = [(j, G.fitting j n, I.addr (G.ptr n))])
      (hh : ∀ t r, ¬ G.Holds s.act n t r)
  | cancelled (hop : G.op n = .waitCond) (hw : s.wait n = .cancelled)
      (hslot : s.slot n = I.empty) (hd : s.delivered n = []) (hr : s.resumed n = 0)
      (hh : ∀ t r, ¬ G.Holds s.act n t r)

/-- What a thread has done to get where it is. -/
def Sound (t : T) (w : Wait) : Act R → Prop
  | .start => w = .idle
  | .published => w ≠ .idle ∧ ((G.op t).target ≠ none → G.before t = (.published : Act R))
  | .retracting => w ≠ .idle ∧ G.op t = .waitCond
  | .holding _ => (G.op t).target ≠ none
  | .ended _ => (G.op t).target = none → w ≠ .idle
  | .panicked => False

/-- Where the waiters are, and how they got there. -/
structure Inv (s : State T V R A) : Prop where
  place : ∀ n, G.Where s n
  waits : ∀ t, s.wait t ≠ .idle → (G.op t).waits = true
  sound : ∀ t, G.Sound t (s.wait t) (s.act t)
  /-- Nobody who came in time has left the waiter in its slot. -/
  late : ∀ t n, s.act t = .ended false → (G.op t).target = some n →
    s.wait n ≠ .idle ∧ s.slot n = I.empty

variable {G} {s : State T V R A}

theorem before_eq (t : T) : G.before t = (.start : Act R) ∨ G.before t = (.published : Act R) := by
  unfold before
  split
  · exact .inr rfl
  · exact .inl rfl

/-- What is known of a thread does not depend on how far its waiting is. -/
theorem Sound.change {t : T} {w v : Wait} {a : Act R} (h : G.Sound t w a) (hw : w ≠ .idle)
    (hv : v ≠ .idle) : G.Sound t v a := by
  cases a with
  | start => exact absurd h hw
  | published | retracting => exact ⟨hv, h.2⟩
  | holding r | panicked => exact h
  | ended e => exact fun _ => hv

/-- A waiter whose slot is not touched, and of whom nobody has begun or ended to take
    hold, is where it was. -/
theorem Where.congr {s₂ : State T V R A} {n : T} (h : G.Where s n)
    (hslot : s₂.slot n = s.slot n) (hw : s₂.wait n = s.wait n)
    (hd : s₂.delivered n = s.delivered n) (hr : s₂.resumed n = s.resumed n)
    (hh : ∀ t r, G.Holds s₂.act n t r ↔ G.Holds s.act n t r) : G.Where s₂ n := by
  -- Each of the places reads only this waiter's entries.
  cases h with
  | idle hw' hslot' hd' hr' hh' =>
      exact .idle (hw.trans hw') (hslot.trans hslot') (hd.trans hd') (hr.trans hr')
        fun t r ht => hh' t r ((hh t r).mp ht)
  | full hw' hslot' hd' hr' hh' =>
      exact .full (hw.trans hw') (hslot.trans hslot') (hd.trans hd') (hr.trans hr')
        fun t r ht => hh' t r ((hh t r).mp ht)
  | held j r hw' hslot' hd' hr' hj htake hh' =>
      exact .held j r (hw.trans hw') (hslot.trans hslot') (hd.trans hd') (hr.trans hr')
        ((hh j r).mpr hj) htake fun t r ht => hh' t r ((hh t r).mp ht)
  | served j hw' hslot' hj hd' hh' =>
      rw [← hw, ← hr] at hw'
      exact .served j hw' (hslot.trans hslot') hj (hd.trans hd')
        fun t r ht => hh' t r ((hh t r).mp ht)
  | cancelled hop hw' hslot' hd' hr' hh' =>
      exact .cancelled hop (hw.trans hw') (hslot.trans hslot') (hd.trans hd') (hr.trans hr')
        fun t r ht => hh' t r ((hh t r).mp ht)

/-- What was published is found again. -/
theorem Inv.take_isSome (h : G.Inv s) {n : T} (hw : s.wait n ≠ .idle) :
    ∃ r, I.take (G.word n) = some r :=
  G.take_word (h.waits n hw)

section

variable [DecidableEq T]

/-- What another thread does is not to take hold. -/
theorem holds_update_ne {act : T → Act R} {t u n : T} {a : Act R} {r : R} (hu : u ≠ t) :
    G.Holds (Function.update act t a) n u r ↔ G.Holds act n u r := by
  unfold Holds
  rw [Function.update_of_ne hu]

/-- A thread that neither held anything nor does now leaves it at that. -/
theorem holds_update {act : T → Act R} {t : T} {a : Act R} (hold : (act t).held = none)
    (hnew : a.held = none) (n u : T) (r : R) :
    G.Holds (Function.update act t a) n u r ↔ G.Holds act n u r := by
  by_cases hu : u = t
  · subst hu
    unfold Holds
    rw [Function.update_self]
    refine ⟨fun hr => ?_, fun hr => ?_⟩
    · rw [hr.2] at hnew
      cases hnew
    · rw [hr.2] at hold
      cases hold
  · exact holds_update_ne hu

/-- Who takes from one slot does not hold what is in another. -/
theorem holds_update_target {act : T → Act R} {t m n : T} {a : Act R}
    (ht : (G.op t).target = some n) (hm : m ≠ n) (u : T) (r : R) :
    G.Holds (Function.update act t a) m u r ↔ G.Holds act m u r := by
  by_cases hu : u = t
  · subst hu
    unfold Holds
    rw [ht]
    exact ⟨fun hr => absurd (Option.some.inj hr.1).symm hm,
      fun hr => absurd (Option.some.inj hr.1).symm hm⟩
  · exact holds_update_ne hu

theorem inv_publish (h : G.Inv s) {t : T} (hg : G.guard s (.publish t)) :
    G.Inv (G.next s (.publish t)) := by
  obtain ⟨hidle, hwaits, hact⟩ := hg
  have hnext : (G.next s (.publish t)).wait = Function.update s.wait t .waiting := rfl
  -- Nobody else's hands are touched.
  have hholds : ∀ n u r, G.Holds (G.next s (.publish t)).act n u r ↔ G.Holds s.act n u r := by
    intro n u r
    change G.Holds (if (s.act t).held = none then _ else _) n u r ↔ _
    split
    next hnone => exact holds_update hnone rfl n u r
    next => exact Iff.rfl
  refine ⟨fun n => ?_, fun u hu => ?_, fun u => ?_, fun u n hu hn => ?_⟩
  · -- Its own slot is full now, and was empty because it was idle.
    by_cases hn : n = t
    · subst hn
      cases h.place n with
      | idle hw hslot hd hr hh =>
          exact .full (Function.update_self ..) (Function.update_self ..) hd hr
            fun u r hu => hh u r ((hholds n u r).mp hu)
      | full hw => rw [hidle] at hw; cases hw
      | held j r hw => rw [hidle] at hw; cases hw
      | served j hw => rw [hidle] at hw; rcases hw with ⟨hw, -⟩ | ⟨hw | hw, -⟩ <;> cases hw
      | cancelled hop hw => rw [hidle] at hw; cases hw
    · exact (h.place n).congr (Function.update_of_ne hn ..) (Function.update_of_ne hn ..) rfl rfl
        (hholds n)
  · by_cases hut : u = t
    · rw [hut]
      exact hwaits
    · rw [hnext, Function.update_of_ne hut] at hu
      exact h.waits u hu
  · have hsound := h.sound u
    change G.Sound u (Function.update s.wait t .waiting u)
      ((if (s.act t).held = none then Function.update s.act t .published else s.act) u)
    by_cases hut : u = t
    · subst hut
      rw [Function.update_self]
      rcases hact with ⟨hstart, hbefore⟩ | hheld
      · rw [if_pos (by rw [hstart]; rfl), Function.update_self]
        refine ⟨nofun, fun htarget => ?_⟩
        rcases hbefore with hnone | hpub
        · exact absurd hnone htarget
        · exact hpub
      · rw [if_neg hheld]
        cases hr : s.act u with
        | holding r =>
            rw [hr] at hsound
            exact hsound
        | start | published | retracting | ended e | panicked =>
            rw [hr] at hheld
            exact absurd rfl hheld
    · rw [Function.update_of_ne hut]
      split
      · rw [Function.update_of_ne hut]
        exact hsound
      · exact hsound
  · -- Whoever came in time came after somebody was published.
    have hover : s.act u = .ended false := by
      change (if (s.act t).held = none then Function.update s.act t .published else s.act) u =
        .ended false at hu
      split at hu
      · by_cases hut : u = t
        · rw [hut, Function.update_self] at hu
          cases hu
        · rwa [Function.update_of_ne hut] at hu
      · exact hu
    obtain ⟨hne, hslot⟩ := h.late u n hover hn
    have hnt : n ≠ t := fun hnt => hne (hnt ▸ hidle)
    exact ⟨by rw [hnext, Function.update_of_ne hnt]; exact hne,
      (Function.update_of_ne hnt ..).trans hslot⟩

theorem inv_run (h : G.Inv s) {t : T} {b : Bool} (hg : G.guard s (.run t b)) :
    G.Inv (G.next s (.run t b)) := by
  obtain ⟨hact, htarget, hb⟩ := hg
  -- What the callback returns changes nothing of what is in anybody's hand.
  have hholds : ∀ n u r, G.Holds (G.next s (.run t b)).act n u r ↔ G.Holds s.act n u r := by
    intro n u r
    refine holds_update (by rw [hact]; rfl) ?_ n u r
    split <;> rfl
  have hpublished : s.wait t ≠ .idle := by
    have := h.sound t
    rw [hact] at this
    exact this.1
  refine ⟨fun n => (h.place n).congr rfl rfl rfl rfl (hholds n), h.waits, fun u => ?_,
    fun u n hu hn => ?_⟩
  · change G.Sound u (s.wait u) (Function.update s.act t _ u)
    by_cases hut : u = t
    · subst hut
      rw [Function.update_self]
      split
      next => exact fun _ => hpublished
      next hfalse => exact ⟨hpublished, hb.resolve_left hfalse⟩
    · rw [Function.update_of_ne hut]
      exact h.sound u
  · have hut : u ≠ t := by
      intro hut
      rw [hut, htarget] at hn
      cases hn
    refine h.late u n ?_ hn
    exact (Function.update_of_ne hut ..).symm.trans hu

omit [DecidableEq T] in
/-- Only a slot that is full has something to take. -/
theorem Where.slot_eq {n : T} (h : G.Where s n) {r : R} (hr : I.take (s.slot n) = some r) :
    s.wait n = .waiting ∧ s.slot n = G.word n ∧ s.delivered n = [] ∧ s.resumed n = 0 ∧
      ∀ t r, ¬ G.Holds s.act n t r := by
  cases h with
  | full hw hslot hd hres hh => exact ⟨hw, hslot, hd, hres, hh⟩
  | idle hw hslot | held j r hw hslot | served j hw hslot | cancelled hop hw hslot =>
      rw [hslot, I.take_empty] at hr
      cases hr

omit [DecidableEq T] in
/-- What is not full is empty. -/
theorem Inv.slot_empty (h : G.Inv s) {n : T} (hr : I.take (s.slot n) = none) :
    s.slot n = I.empty := by
  cases h.place n with
  | idle hw hslot | held j r hw hslot | served j hw hslot | cancelled hop hw hslot => exact hslot
  | full hw hslot =>
      obtain ⟨r, hword⟩ := h.take_isSome (n := n) (by rw [hw]; nofun)
      rw [hslot, hword] at hr
      cases hr

theorem inv_retract (h : G.Inv s) {t : T} (hg : G.guard s (.retract t))
    (hc : G.Alone s (.retract t)) : G.Inv (G.next s (.retract t)) := by
  have hact : s.act t = .retracting := hg
  obtain ⟨hne, hop⟩ : G.Sound t (s.wait t) (.retracting : Act R) := hact ▸ h.sound t
  have htarget : (G.op t).target = none := by rw [hop]; rfl
  have hover : ∀ act : T → Act R, ∀ n u r,
      act = Function.update s.act t (.ended false) → (G.Holds act n u r ↔ G.Holds s.act n u r) := by
    intro act n u r ha
    rw [ha]
    exact holds_update (by rw [hact]; rfl) rfl n u r
  have hlate : ∀ u n, Function.update s.act t (.ended false) u = .ended false →
      (G.op u).target = some n → s.wait n ≠ .idle ∧ s.slot n = I.empty := by
    intro u n hu hn
    have hut : u ≠ t := by
      intro hut
      rw [hut, htarget] at hn
      cases hn
    exact h.late u n ((Function.update_of_ne hut ..).symm.trans hu) hn
  unfold next
  -- Either the retract takes the handle back, or a notify has taken it first.
  cases hr : I.take (s.slot t) with
  | some r =>
      obtain ⟨hw, hslot, hd, hres, hh⟩ := (h.place t).slot_eq hr
      simp only [hr]
      refine ⟨fun n => ?_, fun u hu => ?_, fun u => ?_, fun u n hu hn => ?_⟩
      · by_cases hn : n = t
        · subst hn
          exact .cancelled hop (Function.update_self ..) (Function.update_self ..) hd hres
            fun u r hu => hh u r ((hover _ n u r rfl).mp hu)
        · exact (h.place n).congr (Function.update_of_ne hn ..) (Function.update_of_ne hn ..) rfl
            rfl fun u r => hover _ n u r rfl
      · by_cases hut : u = t
        · rw [hut, hop]
          rfl
        · simp only [Function.update_of_ne hut] at hu
          exact h.waits u hu
      · by_cases hut : u = t
        · subst hut
          simp only [Function.update_self]
          exact fun _ => nofun
        · simp only [Function.update_of_ne hut]
          exact h.sound u
      · obtain ⟨hidle, hempty⟩ := hlate u n hu hn
        by_cases hnt : n = t
        · subst hnt
          exact ⟨by simp only [Function.update_self]; nofun, Function.update_self ..⟩
        · simp only [Function.update_of_ne hnt]
          exact ⟨hidle, hempty⟩
  | none =>
      -- A ULT is alone when it cancels, and an OS thread goes on to wait.
      have hkind : G.kind t ≠ .ult := by
        intro hk
        have := hc hk
        rw [hr] at this
        cases this
      simp only [hr, if_neg hkind]
      refine ⟨fun n => (h.place n).congr rfl rfl rfl rfl fun u r => hover _ n u r rfl, h.waits,
        fun u => ?_, hlate⟩
      by_cases hut : u = t
      · subst hut
        simp only [Function.update_self]
        exact fun _ => hne
      · simp only [Function.update_of_ne hut]
        exact h.sound u

theorem inv_take (h : G.Inv s) {t : T} (hg : G.guard s (.take t)) :
    G.Inv (G.next s (.take t)) := by
  obtain ⟨htarget, hact⟩ := hg
  obtain ⟨n, hn⟩ := Option.ne_none_iff_exists'.mp htarget
  have hheld : (s.act t).held = none := by
    rcases before_eq (G := G) t with hb | hb <;> rw [hact, hb] <;> rfl
  unfold next
  simp only [hn]
  -- The slot is empty, or what was in it is in the taker's hands now.
  cases hr : I.take (s.slot n) with
  | some r =>
      obtain ⟨hw, hslot, hd, hres, hh⟩ := (h.place n).slot_eq hr
      refine ⟨fun m => ?_, h.waits, fun u => ?_, fun u m hu hm => ?_⟩
      · by_cases hmn : m = n
        · subst hmn
          refine .held t r hw (Function.update_self ..) hd hres ⟨hn, Function.update_self ..⟩
            (hslot ▸ hr) fun u r' hu => ?_
          by_contra hut
          exact hh u r' ((holds_update_ne hut).mp hu)
        · exact (h.place m).congr (Function.update_of_ne hmn ..) rfl rfl rfl
            (holds_update_target hn hmn)
      · by_cases hut : u = t
        · subst hut
          simp only [Function.update_self]
          exact htarget
        · simp only [Function.update_of_ne hut]
          exact h.sound u
      · by_cases hut : u = t
        · subst hut
          simp only [Function.update_self] at hu
          cases hu
        · obtain ⟨hidle, hempty⟩ := h.late u m ((Function.update_of_ne hut ..).symm.trans hu) hm
          refine ⟨hidle, ?_⟩
          by_cases hmn : m = n
          · rw [hmn]
            exact Function.update_self ..
          · exact (Function.update_of_ne hmn ..).trans hempty
  | none =>
      have hempty := h.slot_empty hr
      have hsame : Function.update s.slot n I.empty = s.slot := by
        rw [← hempty, Function.update_eq_self]
      rw [hsame]
      refine ⟨fun m => (h.place m).congr rfl rfl rfl rfl (holds_update hheld rfl m), h.waits,
        fun u => ?_, fun u m hu hm => ?_⟩
      · by_cases hut : u = t
        · subst hut
          simp only [Function.update_self]
          exact fun hnone => absurd hnone htarget
        · simp only [Function.update_of_ne hut]
          exact h.sound u
      · by_cases hut : u = t
        · subst hut
          simp only [Function.update_self] at hu
          obtain rfl : n = m := Option.some.inj (hn.symm.trans hm)
          exact ⟨of_decide_eq_false (Act.ended.inj hu), hempty⟩
        · exact h.late u m ((Function.update_of_ne hut ..).symm.trans hu) hm

theorem inv_hand (h : G.Inv s) {t : T} (hg : G.guard s (.hand t)) :
    G.Inv (G.next s (.hand t)) := by
  obtain ⟨r, hr⟩ := Option.ne_none_iff_exists'.mp hg.1
  have hact : s.act t = .holding r := by
    cases ha : s.act t with
    | holding r' =>
        rw [ha] at hr
        rw [Option.some.inj hr]
    | start | published | retracting | ended e | panicked =>
        rw [ha] at hr
        cases hr
  have htarget : (G.op t).target ≠ none := by
    have := h.sound t
    rwa [hact] at this
  obtain ⟨n, hn⟩ := Option.ne_none_iff_exists'.mp htarget
  unfold next
  simp only [hn, hr]
  -- Somebody holds what was in this slot, and so the thread is who does.
  obtain ⟨hw, hslot, hd, hres, htake, hh⟩ : s.wait n = .waiting ∧ s.slot n = I.empty ∧
      s.delivered n = [] ∧ s.resumed n = 0 ∧ I.take (G.word n) = some r ∧
        ∀ u r, G.Holds s.act n u r → u = t := by
    cases h.place n with
    | held j r' hw hslot hd hres hj htake hh =>
        obtain rfl := hh t r ⟨hn, hact⟩
        obtain rfl : r = r' := Act.holding.inj (hact.symm.trans hj.2)
        exact ⟨hw, hslot, hd, hres, htake, hh⟩
    | idle hw hslot hd hres hh | full hw hslot hd hres hh | served j hw hslot hj hd hh
    | cancelled hop hw hslot hd hres hh => exact absurd ⟨hn, hact⟩ (hh t r)
  refine ⟨fun m => ?_, h.waits, fun u => ?_, fun u m hu hm => ?_⟩
  · by_cases hmn : m = n
    · subst hmn
      refine .served t (.inl ⟨hw, hres⟩) hslot hn ?_ fun u r' hu => ?_
      · simp only [Function.update_self, hd]
        rw [G.deliver_eq (h.waits m (by rw [hw]; nofun)) htake]
      · by_cases hut : u = t
        · subst hut
          have := hu.2
          simp only [Function.update_self] at this
          cases this
        · exact hut (hh u r' ((holds_update_ne hut).mp hu))
    · exact (h.place m).congr rfl rfl (Function.update_of_ne hmn ..) rfl
        (holds_update_target hn hmn)
  · by_cases hut : u = t
    · subst hut
      simp only [Function.update_self]
      exact fun hnone => absurd hnone htarget
    · simp only [Function.update_of_ne hut]
      exact h.sound u
  · by_cases hut : u = t
    · subst hut
      obtain rfl : n = m := Option.some.inj (hn.symm.trans hm)
      exact ⟨by rw [hw]; nofun, hslot⟩
    · exact h.late u m ((Function.update_of_ne hut ..).symm.trans hu) hm

/-- How far a waiter is with its slot may change once it has been woken. -/
theorem Inv.change (h : G.Inv s) {t : T} {w : Wait} {s₂ : State T V R A}
    (hwait : s₂.wait = Function.update s.wait t w) (hact : s₂.act = s.act)
    (hold : s.wait t ≠ .idle) (hnew : w ≠ .idle) (hslot : s₂.slot = s.slot)
    (hplace : ∀ n, G.Where s₂ n) : G.Inv s₂ := by
  -- Who has published stays published.
  have hidle : ∀ u, s.wait u ≠ .idle → s₂.wait u ≠ .idle := by
    intro u hu
    rw [hwait]
    by_cases hut : u = t
    · rw [hut, Function.update_self]
      exact hnew
    · rwa [Function.update_of_ne hut]
  refine ⟨hplace, fun u hu => ?_, fun u => ?_, fun u n hu hn => ?_⟩
  · by_cases hut : u = t
    · rw [hut]
      exact h.waits t hold
    · rw [hwait, Function.update_of_ne hut] at hu
      exact h.waits u hu
  · rw [hact, hwait]
    by_cases hut : u = t
    · subst hut
      rw [Function.update_self]
      exact (h.sound u).change hold hnew
    · rw [Function.update_of_ne hut]
      exact h.sound u
  · rw [hact] at hu
    obtain ⟨hne, hempty⟩ := h.late u n hu hn
    exact ⟨hidle n hne, by rw [hslot]; exact hempty⟩

theorem inv_resume (h : G.Inv s) {t : T} (hg : G.guard s (.resume t)) :
    G.Inv (G.next s (.resume t)) := by
  have hlt : s.resumed t < (s.delivered t).length := hg.1
  -- Only a slot that was served has a resumption to come.
  obtain ⟨j, hw, hres, hslot, hj, hd, hh⟩ : ∃ j, s.wait t = .waiting ∧ s.resumed t = 0 ∧
      s.slot t = I.empty ∧ (G.op j).target = some t ∧
      s.delivered t = [(j, G.fitting j t, I.addr (G.ptr t))] ∧ ∀ u r, ¬ G.Holds s.act t u r := by
    cases h.place t with
    | served j hw hslot hj hd hh =>
        rcases hw with ⟨hw, hres⟩ | ⟨-, hres⟩
        · exact ⟨j, hw, hres, hslot, hj, hd, hh⟩
        · rw [hres, hd] at hlt
          exact absurd hlt (Nat.lt_irrefl 1)
    | idle hw hslot hd | full hw hslot hd | held j r hw hslot hd | cancelled hop hw hslot hd =>
        rw [hd] at hlt
        exact absurd hlt (Nat.not_lt_zero _)
  refine h.change (t := t) rfl rfl (by rw [hw]; nofun) ?_ rfl fun n => ?_
  · split <;> nofun
  · by_cases hn : n = t
    · subst hn
      refine .served j (.inr ⟨?_, ?_⟩) hslot hj hd hh
      · change Function.update s.wait n _ n = _ ∨ Function.update s.wait n _ n = _
        rw [Function.update_self]
        split
        · exact .inl rfl
        · exact .inr rfl
      · change Function.update s.resumed n (s.resumed n + 1) n = 1
        rw [Function.update_self, hres]
    · exact (h.place n).congr rfl (Function.update_of_ne hn ..) rfl (Function.update_of_ne hn ..)
        fun u r => Iff.rfl

theorem inv_reset (h : G.Inv s) {t : T} (hg : G.guard s (.reset t)) :
    G.Inv (G.next s (.reset t)) := by
  have hwoken : s.wait t = .woken := hg
  obtain ⟨j, hres, hslot, hj, hd, hh⟩ : ∃ j, s.resumed t = 1 ∧
      s.slot t = I.empty ∧ (G.op j).target = some t ∧
      s.delivered t = [(j, G.fitting j t, I.addr (G.ptr t))] ∧ ∀ u r, ¬ G.Holds s.act t u r := by
    cases h.place t with
    | served j hw hslot hj hd hh =>
        rcases hw with ⟨hw, -⟩ | ⟨-, hres⟩
        · rw [hwoken] at hw
          cases hw
        · exact ⟨j, hres, hslot, hj, hd, hh⟩
    | idle hw | full hw | held j r hw | cancelled hop hw =>
        rw [hwoken] at hw
        cases hw
  -- The slot was emptied by whoever took the waiter out.
  have hsame : Function.update s.slot t I.empty = s.slot := by
    rw [← hslot, Function.update_eq_self]
  refine h.change (t := t) (w := .returned) rfl rfl (by rw [hwoken]; nofun) nofun hsame
    fun n => ?_
  by_cases hn : n = t
  · subst hn
    exact .served j (.inr ⟨.inr (Function.update_self ..), hres⟩) (Function.update_self ..) hj hd hh
  · exact (h.place n).congr (Function.update_of_ne hn ..) (Function.update_of_ne hn ..) rfl rfl
      fun u r => Iff.rfl

/-- Every step keeps the invariant, if a ULT that cancels is alone. -/
theorem inv_next (a : Action T) (h : G.Inv s) (hg : G.guard s a) (hc : G.Alone s a) :
    G.Inv (G.next s a) := by
  cases a with
  | publish t => exact inv_publish h hg
  | run t b => exact inv_run h hg
  | retract t => exact inv_retract h hg hc
  | take t => exact inv_take h hg
  | hand t => exact inv_hand h hg
  | resume t => exact inv_resume h hg
  | reset t => exact inv_reset h hg

theorem inv_init (hi : (G.system).init s) : G.Inv s := by
  have hi : Start I s := hi
  refine ⟨fun n => .idle (hi.wait n) (hi.slot n) (hi.delivered n) (hi.resumed n) fun t r ht => ?_,
    fun t ht => absurd (hi.wait t) ht, fun t => ?_, fun t n ht => ?_⟩
  · have := ht.2
    rw [hi.act t] at this
    cases this
  · rw [hi.act t]
    exact hi.wait t
  · rw [hi.act t] at ht
    cases ht

theorem Inv.of_reachable (hr : (G.system).ReachableIf G.Alone s) : G.Inv s :=
  hr.induct (fun _ hi => inv_init hi) fun _ a h hg hc => inv_next a h hg hc

omit [DecidableEq T] in
/-- Whoever is not through can take a step. -/
theorem Inv.moves (h : G.Inv s) {t : T} (ht : (s.act t).isOver = false) :
    ∃ a : Action T, a.thread = t ∧ G.guard s a := by
  have hsound := h.sound t
  -- Each place in an operation has a next step, whatever the slots hold.
  cases ha : s.act t with
  | ended e =>
      rw [ha] at ht
      cases ht
  | panicked =>
      rw [ha] at hsound
      exact hsound.elim
  | retracting => exact ⟨.retract t, rfl, ha⟩
  | published =>
      rw [ha] at hsound
      by_cases htarget : (G.op t).target = none
      · exact ⟨.run t true, rfl, ha, htarget, .inl rfl⟩
      · exact ⟨.take t, rfl, htarget, ha.trans (hsound.2 htarget).symm⟩
  | holding r =>
      rw [ha] at hsound
      have hheld : (s.act t).held ≠ none := by rw [ha]; nofun
      by_cases hwait : (G.op t).waits = true ∧ s.wait t = .idle
      · exact ⟨.publish t, rfl, hwait.2, hwait.1, .inr hheld⟩
      · exact ⟨.hand t, rfl, hheld, fun hw hidle => hwait ⟨hw, hidle⟩⟩
  | start =>
      rw [ha] at hsound
      by_cases htarget : (G.op t).target = none
      · have hwaits : (G.op t).waits = true := by
          cases hop : G.op t with
          | wait | waitCond | register => rfl
          | notify n | enter n | swap n =>
              rw [hop] at htarget
              cases htarget
        exact ⟨.publish t, rfl, hsound, hwaits, .inl ⟨ha, .inl htarget⟩⟩
      · rcases before_eq (G := G) t with hb | hb
        · exact ⟨.take t, rfl, htarget, ha.trans hb.symm⟩
        · have hwaits : (G.op t).waits = true := by
            unfold before at hb
            split at hb
            next n hop _ => rw [hop]; rfl
            next => cases hb
          exact ⟨.publish t, rfl, hsound, hwaits, .inl ⟨ha, .inr hb⟩⟩

omit [DecidableEq T] in
/-- What the invariant says of a slot. -/
theorem Inv.delivers (h : G.Inv s) (n : T) : G.Delivers s n := by
  have hpanic : s.act n ≠ .panicked := by
    intro hp
    have := h.sound n
    rw [hp] at this
    exact this
  have hthrough : G.Settled s n → ∀ t, t = n ∨ (G.op t).target = some n →
      (s.act t).isOver = true := by
    intro hset t ht
    by_contra hover
    obtain ⟨a, rfl, hg⟩ := h.moves (Bool.eq_false_iff.mpr hover)
    exact hset a ht hg
  have hnowoken : G.Settled s n → s.wait n ≠ .woken :=
    fun hset hw => hset (.reset n) (.inl rfl) hw
  cases h.place n with
  | idle hw hslot hd hr hh =>
      refine ⟨by rw [hd, hr]; exact ⟨Nat.le_refl 0, Nat.zero_le 1⟩, by rw [hd]; nofun,
        by rw [hw]; nofun, hpanic, by rw [hw]; nofun, fun hset => .inl ⟨hw, fun hnone => ?_⟩⟩
      -- Had it an operation that only waits, it would have published.
      have hover := hthrough hset n (.inl rfl)
      have hsound := h.sound n
      cases ha : s.act n with
      | ended e =>
          rw [ha] at hsound
          exact hsound hnone hw
      | start | published | retracting | holding r | panicked =>
          rw [ha] at hover
          cases hover
  | full hw hslot hd hr hh =>
      refine ⟨by rw [hd, hr]; exact ⟨Nat.le_refl 0, Nat.zero_le 1⟩, by rw [hd]; nofun,
        by rw [hw]; nofun, hpanic, fun _ => .inl hslot,
        fun hset => .inr (.inr (.inr ⟨hw, hslot, hr, fun t ht => ?_⟩))⟩
      have hover := hthrough hset t (.inr ht)
      cases ha : s.act t with
      | ended e =>
          cases e with
          | true => rfl
          | false =>
              -- The slot is full still, and so it was not yet when the thread came.
              obtain ⟨r, hr⟩ := h.take_isSome (n := n) (by rw [hw]; nofun)
              rw [← hslot, (h.late t n ha ht).2, I.take_empty] at hr
              cases hr
      | start | published | retracting | holding r | panicked =>
          rw [ha] at hover
          cases hover
  | held j r hw hslot hd hr hj htake hh =>
      refine ⟨by rw [hd, hr]; exact ⟨Nat.le_refl 0, Nat.zero_le 1⟩, by rw [hd]; nofun,
        by rw [hw]; nofun, hpanic, fun _ => .inr (.inl ⟨j, r, hj.1, hj.2, htake⟩), fun hset => ?_⟩
      have hover := hthrough hset j (.inr hj.1)
      rw [hj.2] at hover
      cases hover
  | cancelled hop hw hslot hd hr hh =>
      exact ⟨by rw [hd, hr]; exact ⟨Nat.le_refl 0, Nat.zero_le 1⟩, by rw [hd]; nofun,
        fun _ => ⟨hop, hd, hr⟩, hpanic, by rw [hw]; nofun,
        fun _ => .inr (.inl ⟨hw, hslot⟩)⟩
  | served j hw hslot hj hd hh =>
      have hlength : (s.delivered n).length = 1 := by rw [hd]; rfl
      refine ⟨⟨?_, Nat.le_of_eq hlength⟩, fun d hmem => ?_, fun hcan => ?_, hpanic,
        fun _ => .inr (.inr ?_), fun hset => .inr (.inr (.inl ?_))⟩
      · rcases hw with ⟨-, hr⟩ | ⟨-, hr⟩ <;> omega
      · rw [hd, List.mem_singleton] at hmem
        subst hmem
        exact ⟨hj, rfl⟩
      · rcases hw with ⟨hw, -⟩ | ⟨hw | hw, -⟩ <;> rw [hw] at hcan <;> cases hcan
      · rw [hd]
        nofun
      · rcases hw with ⟨hw, hr⟩ | ⟨hw | hw, hr⟩
        · -- What was woken goes on.
          refine absurd ?_ (hset (.resume n) (.inl rfl))
          exact ⟨by omega, fun _ => ⟨hw, hthrough hset n (.inl rfl)⟩⟩
        · exact absurd hw (hnowoken hset)
        · exact ⟨hw, hr, hlength, hslot⟩

end

end Program

/-- Wait slots, with any threads of any kinds that wait in them, register and wake. What
    is taken out of a tagged word has the tag and the address that were published, and
    the tag tells the kind. As long as no ULT that cancels is notified at the same time,
    every slot delivers its waiter once, as fits its kind, unless it has cancelled. Only a
    waiter whom everybody came too early for is not resumed, and it is in its slot then. -/
theorem slots_deliver {T : Type*} [DecidableEq T] :
    (∀ k (p : Ptr k) (t : Tag k), ∃ raw, take k (publish p t) = some (t.val, raw) ∧
      intoTyped k raw = p.addr) ∧
    (∀ k l : Kind, k.tag.val = l.tag.val → k = l) ∧
    (∀ (G : Program dualResumable T) (s : State T Word (Word × Word) Word),
      (G.system).ReachableIf G.Alone s → ∀ n, G.Delivers s n) ∧
    ∀ (P : Type*) (G : Program (osSuspendedThread P) T) (s : State T (Option P) P P),
      (G.system).Reachable s → ∀ n, G.Delivers s n := by
  refine ⟨fun k p t => ⟨_, take_publish p t, intoTyped_publish p t⟩, fun k l => ?_,
    fun G s hr n => (Program.Inv.of_reachable hr).delivers n, fun P G s hr n => ?_⟩
  · cases k <;> cases l <;> decide
  · -- No ULT waits in an `OsSuspendedThread`.
    refine Program.Inv.delivers ?_ n
    refine hr.induct (P := G.Inv) (fun _ hi => Program.inv_init hi) fun s a h hg => ?_
    refine Program.inv_next a h hg ?_
    cases a with
    | retract t =>
        have hact : s.act t = .retracting := hg
        have hsound := h.sound t
        rw [hact] at hsound
        have hos : G.kind t = .os := G.admitted t (h.waits t hsound.1)
        intro hult
        rw [hos] at hult
        cases hult
    | publish t | run t b | take t | hand t | resume t | reset t => trivial

/-- Nobody has used a slot yet. -/
def fresh (T : Type*) {V P R A : Type*} (I : Impl V P R A) : State T V R A where
  slot _ := I.empty
  act _ := .start
  wait _ := .idle
  delivered _ := []
  resumed _ := 0

theorem start_fresh (T : Type*) {V P R A : Type*} (I : Impl V P R A) : Start I (fresh T I) :=
  ⟨fun _ => rfl, fun _ => rfl, fun _ => rfl, fun _ => rfl, fun _ => rfl⟩

/-- What the threads below publish. -/
def somePtr : Ptr 2 := ⟨16, by decide, by decide⟩

/-- An OS thread swaps to a ULT that waits, and a ULT enters the OS thread's slot. -/
def chained : Program dualResumable (Fin 3) where
  kind t := if t = 1 then .os else .ult
  op t := if t = 0 then .wait else if t = 1 then .swap 0 else .enter 1
  ptr _ := somePtr
  allowed := by decide
  admitted _ _ := trivial

/-- The OS thread is taken out before it has resumed what it took. -/
def chainedRun : List (Action (Fin 3)) :=
  [.publish 0, .run 0 true, .publish 1, .take 1, .take 2, .hand 2, .hand 1, .resume 0, .resume 1]

theorem deliver_chained :
    let s := (chained.system).run (fresh (Fin 3) dualResumable) chainedRun
    s.delivered 0 = [(1, .push, 16)] ∧ s.delivered 1 = [(2, .unpark, 16)] ∧
      chained.Delivers s 0 ∧ chained.Delivers s 1 := by
  intro s
  have hr : (chained.system).ReachableIf chained.Alone s :=
    System.reachableIf_run _ chainedRun _ (.init _ (start_fresh _ _)) (by decide +kernel)
      (by decide +kernel)
  exact ⟨by decide +kernel, by decide +kernel, slots_deliver.{0, 0}.2.2.1 chained s hr 0,
    slots_deliver.{0, 0}.2.2.1 chained s hr 1⟩

/-- A ULT waits, and another notifies it. -/
def notified : Program dualResumable (Fin 2) where
  kind _ := .ult
  op t := if t = 0 then .wait else .notify 0
  ptr _ := somePtr
  allowed := by decide
  admitted _ _ := trivial

/-- A wake that comes before the waiter resumes nobody: nothing is left to be done, and
    the waiter is still in its slot. -/
theorem early_notify :
    let s := (notified.system).run (fresh (Fin 2) dualResumable) [.take 1, .publish 0, .run 0 true]
    (notified.system).ReachableIf notified.Alone s ∧ notified.Settled s 0 ∧
      s.wait 0 = .waiting ∧ s.resumed 0 = 0 ∧ s.slot 0 ≠ dualResumable.empty := by
  intro s
  refine ⟨System.reachableIf_run _ _ _ (.init _ (start_fresh _ _)) (by decide +kernel)
    (by decide +kernel), fun a _ => ?_, by decide +kernel, by decide +kernel, by decide +kernel⟩
  cases a with
  | publish t => revert t; decide +kernel
  | run t b => revert t b; decide +kernel
  | retract t => revert t; decide +kernel
  | take t => revert t; decide +kernel
  | hand t => revert t; decide +kernel
  | resume t => revert t; decide +kernel
  | reset t => revert t; decide +kernel

end Slot

end Cmpth

import Cmpth.Core.System
import Cmpth.Waker.Word
import Mathlib.Logic.Function.Basic

/-!
# `block_on` and Its Pollers

The calls of `block_on` on one ULT, one inside the poll of another, and the
wakers of all of them. The ULT is suspended by the innermost call only, and
whoever claims its word pushes it to a run queue.

There are two pollers. `UltPoller` keeps the state of every call in the word of
the ULT's descriptor, and `ResumablePoller` has a slot for each call, with a
word and with a cell for the continuation. What they do is the same otherwise,
so a poller is where the words are and whether there is a cell.

Each load, exchange and store of a word is a step, and so are the store and the
load of the cell and each push. What happens between the start of a poll and its
end is in the steps of wakers and of inner calls.

## Main definitions

* `Poller`: `UltPoller` and `ResumablePoller`.
* `State`, `Action`, `system`: The calls of one ULT as a guarded transition
  system.
* `Lost`: The ULT is parked although it was woken, and nobody is to push it.
-/

namespace Cmpth

namespace Waker

namespace BlockOn

/-- Where the calls `C` have their words, and whether they have cells for their
    continuations. -/
structure Poller (C D : Type*) where
  home : C → D
  cell : Bool

/-- `UltPoller`: the word of the descriptor. -/
def ultPoller (C : Type*) : Poller C Unit where
  home _ := ()
  cell := false

/-- `ResumablePoller`: a slot for each call. -/
def resumablePoller (C : Type*) : Poller C C where
  home c := c
  cell := true

/-- Where the ULT is, in its innermost call. -/
inductive UltPc where
  /-- About to poll the future. -/
  | ready
  /-- In the poll, or outside of all calls. -/
  | polling
  /-- The future is done; about to drop the poller. -/
  | leaving
  /-- `wait`, suspended: about to store the continuation. -/
  | storing
  /-- `decide_park`: about to load. -/
  | deciding
  /-- `decide_park`: about to exchange. -/
  | decideCas (refs : Word)
  /-- Suspended for good. -/
  | suspended
  deriving DecidableEq, Repr

/-- What is being done with a waker of a call. -/
inductive WakerPc (C : Type*) where
  | none
  /-- `note_waker_shared`: about to load. -/
  | sharing (c : C)
  /-- `note_waker_shared`: about to exchange. -/
  | shareCas (c : C) (old : Word)
  | held (c : C)
  /-- `try_wake_state`: about to load. -/
  | waking (c : C)
  /-- `try_wake_state`: about to exchange. -/
  | wakeCas (c : C) (refs : Word)
  /-- Has claimed the ULT; about to load the continuation. -/
  | claimed (c : C)
  /-- About to push the continuation of the wait. -/
  | pushing (c : C) (wait : Option Nat)
  deriving DecidableEq, Repr

/-- `stack` has the calls in progress, the innermost first. `parks` counts the
    waits, and `cont` has the one whose continuation was stored. `pushes` counts
    the pushes since the ULT was last suspended for good, and `woken` says of a
    call that a wake of one of its wakers took effect after its last poll
    began. -/
structure State (C D K Q : Type*) where
  word : D → Word
  cont : D → Option Nat
  stack : List C
  started : C → Bool
  ult : UltPc
  waker : K → WakerPc C
  queue : Q → Nat
  parks : Nat
  pushes : Nat
  woken : C → Bool

/-- The steps of `block_on` calls and of their wakers. -/
inductive Action (C K Q : Type*) where
  /-- `block_on` begins: `Poller::new`. -/
  | enter (c : C)
  | poll
  /-- The future returns `Pending`; `wait` suspends. -/
  | pending
  /-- The future returns `Ready` or panics. -/
  | finish
  /-- The poller is dropped. -/
  | leave
  /-- `wait` stores the continuation. -/
  | store
  | decideLoad
  | decideExchange
  /-- A worker takes the ULT from a queue and resumes it. -/
  | resume (q : Q)
  /-- The poller's own waker is handed out. -/
  | borrow (c : C) (k : K)
  /-- The poller's own waker is cloned. -/
  | clone (c : C) (k : K)
  | shareLoad (k : K)
  | shareExchange (k : K)
  | cloneWaker (k k' : K)
  | drop (k : K)
  /-- A wake begins. -/
  | wake (k : K)
  | wakeLoad (k : K)
  | wakeExchange (k : K)
  /-- The waker that has claimed the ULT loads its continuation. -/
  | read (k : K)
  /-- `push_continuation`. -/
  | push (k : K) (q : Q)
  deriving DecidableEq, Repr

variable {C D K Q : Type*}

/-- The call of the waker. -/
def WakerPc.call : WakerPc C → Option C
  | .none => Option.none
  | .sharing c | .shareCas c _ | .held c | .waking c | .wakeCas c _ | .claimed c
  | .pushing c _ => some c

/-- The waker has claimed the ULT. -/
def WakerPc.Claims : WakerPc C → Prop
  | .claimed _ | .pushing _ _ => True
  | .none | .sharing _ | .shareCas _ _ | .held _ | .waking _ | .wakeCas _ _ => False

instance (pc : WakerPc C) : Decidable pc.Claims :=
  match pc with
  | .claimed _ | .pushing _ _ => isTrue trivial
  | .none | .sharing _ | .shareCas _ _ | .held _ | .waking _ | .wakeCas _ _ => isFalse (fun h => h)

section

variable [DecidableEq C] [DecidableEq D] [DecidableEq K] [DecidableEq Q] (P : Poller C D)

/-- Store to a word. -/
def State.setWord (s : State C D K Q) (d : D) (w : Word) : State C D K Q :=
  { s with word := Function.update s.word d w }

/-- Put a waker in another place. -/
def State.setWaker (s : State C D K Q) (k : K) (pc : WakerPc C) : State C D K Q :=
  { s with waker := Function.update s.waker k pc }

/-- A wake of the call took effect. -/
def State.wokenBy (s : State C D K Q) (c : C) : State C D K Q :=
  { s with woken := Function.update s.woken c true }

/-- `decide_park` exchanges the word it has loaded. -/
def State.decidePark (s : State C D K Q) (d : D) (refs : Word) : State C D K Q :=
  if s.word d = refs then
    if (parkTry refs).2 = true then
      { s.setWord d (parkTry refs).1 with
        ult := .suspended
        pushes := 0 }
    else { s.setWord d (parkTry refs).1 with ult := .ready }
  else { s with ult := .deciding }

/-- `try_wake_state` exchanges the word it has loaded. -/
def State.wakeExchange (s : State C D K Q) (k : K) (c : C) (refs : Word) : State C D K Q :=
  if s.word (P.home c) = refs then
    match wakeTry refs with
    | .exchange new .claimedParked =>
        ((s.setWord (P.home c) new).setWaker k (.claimed c)).wokenBy c
    | .exchange new _ => ((s.setWord (P.home c) new).setWaker k (.held c)).wokenBy c
    | _ => s
  else s.setWaker k (.waking c)

/-- A compare and exchange that fails goes back to its load. -/
def next (s : State C D K Q) : Action C K Q → State C D K Q
  | .enter c =>
      { s.setWord (P.home c) polling with
        stack := c :: s.stack
        started := Function.update s.started c true
        ult := .ready
        woken := Function.update s.woken c false }
  | .poll =>
      match s.stack with
      | [] => s
      | c :: _ => { s with ult := .polling, woken := Function.update s.woken c false }
  | .pending =>
      { s with
        ult := if P.cell = true then .storing else .deciding
        parks := s.parks + 1 }
  | .finish => { s with ult := .leaving }
  | .leave =>
      match s.stack with
      | [] => s
      | c :: stack => { s.setWord (P.home c) idle with stack := stack, ult := .polling }
  | .store =>
      match s.stack with
      | [] => s
      | c :: _ =>
          { s with
            cont := Function.update s.cont (P.home c) (some s.parks)
            ult := .deciding }
  | .decideLoad =>
      match s.stack with
      | [] => s
      | c :: _ => { s with ult := .decideCas (s.word (P.home c)) }
  | .decideExchange =>
      match s.stack, s.ult with
      | c :: _, .decideCas refs => s.decidePark (P.home c) refs
      | _, _ => s
  | .resume q =>
      { s with
        queue := Function.update s.queue q (s.queue q - 1)
        ult := .ready }
  | .borrow c k => s.setWaker k (.held c)
  | .clone c k => s.setWaker k (if P.cell = true then .held c else .sharing c)
  | .shareLoad k =>
      match s.waker k with
      | .sharing c => s.setWaker k (.shareCas c (s.word (P.home c)))
      | _ => s
  | .shareExchange k =>
      match s.waker k with
      | .shareCas c old =>
          if s.word (P.home c) = old then
            (s.setWord (P.home c) (share old)).setWaker k (.held c)
          else s.setWaker k (.sharing c)
      | _ => s
  | .cloneWaker k k' => s.setWaker k' (s.waker k)
  | .drop k => s.setWaker k .none
  | .wake k =>
      match s.waker k with
      | .held c => s.setWaker k (.waking c)
      | _ => s
  | .wakeLoad k =>
      match s.waker k with
      | .waking c =>
          match wakeTry (s.word (P.home c)) with
          | .exchange _ _ => s.setWaker k (.wakeCas c (s.word (P.home c)))
          | .done _ => (s.setWaker k (.held c)).wokenBy c
          | .unreachable => s
      | _ => s
  | .wakeExchange k =>
      match s.waker k with
      | .wakeCas c refs => s.wakeExchange P k c refs
      | _ => s
  | .read k =>
      match s.waker k with
      | .claimed c =>
          s.setWaker k (.pushing c (if P.cell = true then s.cont (P.home c) else some s.parks))
      | _ => s
  | .push k q =>
      match s.waker k with
      | .pushing c _ =>
          { s.setWaker k (.held c) with
            queue := Function.update s.queue q (s.queue q + 1)
            pushes := s.pushes + 1 }
      | _ => s

/-- A call of `block_on` has wakers from when it begins. -/
def guard (s : State C D K Q) : Action C K Q → Prop
  | .enter c => s.ult = .polling ∧ s.started c = false
  | .poll => s.ult = .ready
  | .pending | .finish => s.ult = .polling ∧ s.stack ≠ []
  | .leave => s.ult = .leaving
  | .store => s.ult = .storing
  | .decideLoad => s.ult = .deciding
  | .decideExchange => ∃ refs, s.ult = .decideCas refs
  | .resume q => 0 < s.queue q
  | .borrow c k | .clone c k => c ∈ s.stack ∧ s.waker k = .none
  | .shareLoad k => ∃ c, s.waker k = .sharing c
  | .shareExchange k => ∃ c old, s.waker k = .shareCas c old
  | .cloneWaker k k' => (∃ c, s.waker k = .held c) ∧ s.waker k' = .none
  | .drop k | .wake k => ∃ c, s.waker k = .held c
  | .wakeLoad k => ∃ c, s.waker k = .waking c
  | .wakeExchange k => ∃ c refs, s.waker k = .wakeCas c refs
  | .read k => ∃ c, s.waker k = .claimed c
  | .push k _ => ∃ c wait, s.waker k = .pushing c wait

/-- A state of one call, and what tells it: nothing else to look for. -/
def WakerPc.decidableExists (pc : WakerPc C) (f : C → WakerPc C) (hf : ∀ c, (f c).call = some c)
    [∀ c, Decidable (pc = f c)] : Decidable (∃ c, pc = f c) :=
  match h : pc.call with
  | Option.none => isFalse (fun ⟨c, hc⟩ => by rw [hc, hf] at h; cases h)
  | some c =>
      decidable_of_iff (pc = f c)
        ⟨fun hc => ⟨c, hc⟩, fun ⟨c', hc'⟩ => by
          rw [hc', hf] at h
          cases h
          exact hc'⟩

instance (pc : UltPc) : Decidable (∃ refs, pc = .decideCas refs) :=
  match pc with
  | .decideCas refs => isTrue ⟨refs, rfl⟩
  | .ready | .polling | .leaving | .storing | .deciding | .suspended =>
      isFalse (fun ⟨_, h⟩ => nomatch h)

instance (pc : WakerPc C) : Decidable (∃ c old, pc = .shareCas c old) :=
  match pc with
  | .shareCas c old => isTrue ⟨c, old, rfl⟩
  | .none | .sharing _ | .held _ | .waking _ | .wakeCas _ _ | .claimed _ | .pushing _ _ =>
      isFalse (fun ⟨_, _, h⟩ => nomatch h)

instance (pc : WakerPc C) : Decidable (∃ c refs, pc = .wakeCas c refs) :=
  match pc with
  | .wakeCas c refs => isTrue ⟨c, refs, rfl⟩
  | .none | .sharing _ | .shareCas _ _ | .held _ | .waking _ | .claimed _ | .pushing _ _ =>
      isFalse (fun ⟨_, _, h⟩ => nomatch h)

instance (pc : WakerPc C) : Decidable (∃ c wait, pc = .pushing c wait) :=
  match pc with
  | .pushing c wait => isTrue ⟨c, wait, rfl⟩
  | .none | .sharing _ | .shareCas _ _ | .held _ | .waking _ | .wakeCas _ _ | .claimed _ =>
      isFalse (fun ⟨_, _, h⟩ => nomatch h)

instance (pc : WakerPc C) : Decidable (∃ c, pc = .held c) :=
  pc.decidableExists .held fun _ => rfl

instance (pc : WakerPc C) : Decidable (∃ c, pc = .sharing c) :=
  pc.decidableExists .sharing fun _ => rfl

instance (pc : WakerPc C) : Decidable (∃ c, pc = .waking c) :=
  pc.decidableExists .waking fun _ => rfl

instance (pc : WakerPc C) : Decidable (∃ c, pc = .claimed c) :=
  pc.decidableExists .claimed fun _ => rfl

instance (s : State C D K Q) : ∀ a : Action C K Q, Decidable (guard s a)
  | .enter _ | .pending | .finish | .borrow .. | .clone .. | .cloneWaker .. =>
      inferInstanceAs (Decidable (_ ∧ _))
  | .poll | .leave | .store | .decideLoad => inferInstanceAs (Decidable (_ = _))
  | .decideExchange | .shareLoad _ | .shareExchange _ | .drop _ | .wake _ | .wakeLoad _
  | .wakeExchange _ | .read _ | .push .. => inferInstanceAs (Decidable (∃ _, _))
  | .resume _ => inferInstanceAs (Decidable (_ < _))

/-- A ULT that has not called `block_on`. -/
def init (s : State C D K Q) : Prop :=
  s.stack = [] ∧ (∀ c, s.started c = false) ∧ s.ult = .polling ∧ (∀ k, s.waker k = .none) ∧
    (∀ q, s.queue q = 0) ∧ s.pushes = 0 ∧ ∀ d, s.word d = idle

/-- The calls of one ULT as a guarded transition system. -/
def system : System (State C D K Q) (Action C K Q) where
  init := init
  guard := guard
  next := next P

instance decidableSystemGuard (s : State C D K Q) (a : Action C K Q) :
    Decidable ((system (K := K) (Q := Q) P).guard s a) :=
  inferInstanceAs (Decidable (guard s a))

end

/-- The ULT is parked in its innermost call, neither queued nor being pushed,
    although a wake of that call took effect after its last poll began. -/
def Lost (s : State C D K Q) : Prop :=
  s.ult = .suspended ∧ (∀ q, s.queue q = 0) ∧ (∀ k, ¬ (s.waker k).Claims) ∧
    ∃ c ∈ s.stack.head?, s.woken c = true

end BlockOn

end Waker

end Cmpth

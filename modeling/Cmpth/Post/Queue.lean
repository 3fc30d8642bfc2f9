import Cmpth.Core.Chain
import Cmpth.Duty.Registry
import Cmpth.Post.Ticket

/-!
# `QueuePostDelegator`

The delegator that keeps a list of the slots posted since the last serve. Every
load, store, swap and compare and exchange of shared memory is a step. A
producer is the thread whose slot it is; what a thread does as a server is kept
apart from what it does as a producer, so that a consumer may post from its
serve.

The slots are there from the start. That a thread registers one at its first
post is part of `SlotPostDelegator`, which looks for them.

## Main definitions

* `State`, `Action`, `system`: The delegator as a guarded transition system.
-/

namespace Cmpth

namespace Post

namespace Queue

open Duty (NEVER ns)

/-- Where a producer is in `post`. -/
inductive PostPc (P : Type*) where
  | idle
  /-- The mark is stored; about to swap `queued`. -/
  | bumped
  /-- `queued` was false; about to load `pending`. -/
  | swapped
  /-- About to store `next_pending`. -/
  | loaded (h : Option P)
  /-- About to exchange `pending`. -/
  | linked (h : Option P)
  /-- The list was empty; about to set the duty's deadline. -/
  | asking
  deriving DecidableEq, Repr

/-- Where a thread is in `serve_now`, in the duty's poll around it (`duty`), or
    in `with_lock`. -/
inductive ServePc (P : Type*) where
  | idle
  /-- `run` has cleared the deadline; about to look at `pending`. -/
  | polling
  /-- About to load `busy`. -/
  | wanting (duty : Bool)
  /-- About to exchange `busy`. -/
  | trying (duty : Bool)
  /-- About to take the list. -/
  | locked (duty : Bool)
  | draining (duty : Bool) (p : Option P)
  /-- Has read the link of the slot; about to clear `queued`. -/
  | unlisting (duty : Bool) (slot : P) (p : Option P)
  /-- About to load the mark. -/
  | collecting (duty : Bool) (slot : P) (p : Option P)
  /-- About to call the consumer, if there is anything to serve. -/
  | serving (duty : Bool)
  | unlocking (duty : Bool)
  /-- The poll is about to look at `pending` again. -/
  | checking
  | asking
  /-- `with_lock`: about to load `busy`. -/
  | spinning
  | spinningTry
  | inside
  deriving DecidableEq, Repr

/-- `log` has the batches the consumer was called with. -/
structure State (P T : Type*) where
  mark : P → Nat
  queued : P → Bool
  nextPending : P → Option P
  seen : P → Nat
  pending : Option P
  busy : Bool
  batch : List (Ticket P)
  deadline : Nat
  log : List (List (Ticket P))
  post : P → PostPc P
  serve : T → ServePc P

/-- The steps of producers, of servers and of those who take the lock. -/
inductive Action (P T : Type*) where
  /-- `post`: the mark. -/
  | post (p : P)
  /-- The next step of a post. -/
  | postStep (p : P) (now : Nat) (spurious : Bool)
  /-- The duty's poll, from the clearing of the deadline. -/
  | poll (t : T)
  | serveNow (t : T)
  | withLock (t : T)
  /-- The next step of a thread's serve or of its locked section. -/
  | step (t : T) (now : Nat)
  deriving DecidableEq, Repr

variable {P T : Type*} [DecidableEq P] [DecidableEq T]

/-- Put a producer in another place. -/
def State.setPost (s : State P T) (p : P) (pc : PostPc P) : State P T :=
  { s with post := Function.update s.post p pc }

/-- Put a server in another place. -/
def State.setServe (s : State P T) (t : T) (pc : ServePc P) : State P T :=
  { s with serve := Function.update s.serve t pc }

/-- `serve_now` has returned. -/
def returned (duty : Bool) : ServePc P :=
  if duty = true then .checking else .idle

/-- `serve_now` looks at `pending`. -/
def State.look (s : State P T) (t : T) (duty : Bool) : State P T :=
  s.setServe t (if s.pending = none then returned duty else .wanting duty)

/-- The next step of a post. -/
def State.postNext (latency : Nat) (s : State P T) (p : P) (now : Nat) (spurious : Bool) :
    State P T :=
  match s.post p with
  | .idle => s
  | .bumped =>
      { s.setPost p (if s.queued p = true then .idle else .swapped) with
        queued := Function.update s.queued p true }
  | .swapped => s.setPost p (.loaded s.pending)
  | .loaded h =>
      { s.setPost p (.linked h) with nextPending := Function.update s.nextPending p h }
  | .linked h =>
      if s.pending = h ∧ spurious = false then
        { s.setPost p (if h = none then .asking else .idle) with pending := some p }
      else s.setPost p (.loaded s.pending)
  | .asking => { s.setPost p .idle with deadline := ns (now + latency) }

/-- The next step of a serve, a poll or a locked section. -/
def State.serveNext (latency : Nat) (s : State P T) (t : T) (now : Nat) : State P T :=
  match s.serve t with
  | .idle => s
  | .polling => s.look t true
  | .wanting duty => s.setServe t (if s.busy = true then returned duty else .trying duty)
  | .trying duty =>
      if s.busy = true then s.setServe t (returned duty)
      else { s.setServe t (.locked duty) with busy := true }
  | .locked duty =>
      { s.setServe t (.draining duty s.pending) with
        batch := []
        pending := none }
  | .draining duty none => s.setServe t (.serving duty)
  | .draining duty (some slot) => s.setServe t (.unlisting duty slot (s.nextPending slot))
  | .unlisting duty slot p =>
      { s.setServe t (.collecting duty slot p) with
        queued := Function.update s.queued slot false }
  | .collecting duty slot p =>
      { s.setServe t (.draining duty p) with
        seen := Function.update s.seen slot
          (collect slot (s.mark slot) (s.seen slot) s.batch).1
        batch := (collect slot (s.mark slot) (s.seen slot) s.batch).2 }
  | .serving duty =>
      { s.setServe t (.unlocking duty) with
        log := if s.batch = [] then s.log else s.log ++ [s.batch] }
  | .unlocking duty => { s.setServe t (returned duty) with busy := false }
  | .checking => s.setServe t (if s.pending = none then .idle else .asking)
  | .asking => { s.setServe t .idle with deadline := ns (now + latency) }
  | .spinning => s.setServe t (if s.busy = true then .spinning else .spinningTry)
  | .spinningTry =>
      if s.busy = true then s.setServe t .spinning
      else { s.setServe t .inside with busy := true }
  | .inside => { s.setServe t .idle with busy := false }

/-- When an action can be taken. -/
def guard (s : State P T) : Action P T → Prop
  | .post p => s.post p = .idle
  | .postStep p _ _ => s.post p ≠ .idle
  | .poll t | .serveNow t | .withLock t => s.serve t = .idle
  | .step t _ => s.serve t ≠ .idle

instance (s : State P T) : ∀ a, Decidable (guard s a)
  | .post p => inferInstanceAs (Decidable (s.post p = .idle))
  | .postStep p _ _ => inferInstanceAs (Decidable (s.post p ≠ .idle))
  | .poll t | .serveNow t | .withLock t => inferInstanceAs (Decidable (s.serve t = .idle))
  | .step t _ => inferInstanceAs (Decidable (s.serve t ≠ .idle))

/-- What an action does. -/
def next (latency : Nat) (s : State P T) : Action P T → State P T
  | .post p => { s.setPost p .bumped with mark := Function.update s.mark p (s.mark p + 1) }
  | .postStep p now spurious => s.postNext latency p now spurious
  | .poll t => { s.setServe t .polling with deadline := NEVER }
  | .serveNow t => s.look t false
  | .withLock t => s.setServe t .spinning
  | .step t now => s.serveNext latency t now

/-- A delegator nobody has used. -/
def init (s : State P T) : Prop :=
  (∀ p, s.mark p = 0) ∧ (∀ p, s.queued p = false) ∧ (∀ p, s.seen p = 0) ∧ s.pending = none ∧
  s.busy = false ∧ s.batch = [] ∧ s.log = [] ∧ (∀ p, s.post p = .idle) ∧ ∀ t, s.serve t = .idle

/-- The delegator as a guarded transition system. -/
def system (latency : Nat) : System (State P T) (Action P T) where
  init := init
  guard := guard
  next := next latency

instance (latency : Nat) (s : State P T) (a : Action P T) :
    Decidable ((system latency).guard s a) :=
  inferInstanceAs (Decidable (guard s a))

/-- No operation is in flight. -/
def Quiet (s : State P T) : Prop :=
  (∀ p, s.post p = .idle) ∧ ∀ t, s.serve t = .idle

end Queue

end Post

end Cmpth

import Mathlib.Data.Fintype.Card
import Mathlib.Logic.Function.Basic
import Cmpth.Core.System

/-!
# The Parking Idle Policies

`ParkIdle` and `SearchIdle`, the idle loop that calls them and the producers
that wake what they put to sleep.

A worker goes round its loop: a search that visits the queues one at a time,
then `work_found` or `no_work_found`, each of whose atomic operations and
lock-held sections is a step. `no_work_found` of `SearchIdle` ends in that of
`ParkIdle`, so that one model of a worker serves both policies. What a step of
a worker reads of the shared state is its `View`, what it does to it its
`Effect`; everything else about the step concerns the worker alone.

Every worker has its own queue, which only the code it runs pushes to, and
there is an external one. The standard dispatch looks at a worker's own queue
and at the external one in every search. How many other queues a search looks
at is up to the steal policy, and here to the run.

`epoch` counts the bumps; the code keeps the count modulo `2 ^ 32`, and
`unchanged` compares it so. The counters are integers, so that one decrement
too many would show. What is not modelled of an idle episode is the clock
(`spin` stands for its answer) and the timed waits of the duties (`timed`).

## Main definitions

* `Pc`, `Worker`: Where a worker is in its loop, and its episode.
* `Step`, `Worker.go`, `Worker.step`: What it does next.
* `ProducerPc`: How far a `new_work` has come.
* `State`, `Action`, `system`: The policy as a guarded transition system.
* `Quiet`: No operation of the policy is in flight, other than blocked waits.
* `NoWrap`: No ticket is older than the epoch can tell.
-/

namespace Cmpth

namespace Idle

/-- The two idle policies. -/
inductive Policy where
  | park
  | search
  deriving DecidableEq, Repr

/-- `FutexWait` or `CondvarWait`. -/
inductive ParkWait where
  | futex
  | condvar
  deriving DecidableEq, Repr

/-- The policy of a pool. `cap` is `C::cap`, by the numbers of workers, of
    parked ones and of searching ones. -/
structure Config where
  policy : Policy
  wait : ParkWait
  cap : Nat → Nat → Nat → Nat

/-- How far a `wake_one` or `wake_all` has come. -/
inductive Waking where
  | bump
  /-- `CondvarWait`: pass through the lock. -/
  | pass
  | notify
  deriving DecidableEq, Repr

/-- The run queue of a worker, or the external queue. -/
abbrev Queue (W : Type*) := Option W

/-- Where a worker is in its loop. -/
inductive Pc (W : Type*) where
  /-- Running a task. -/
  | running
  /-- About to check `finished`. -/
  | head
  /-- Searching: the queues found empty so far, and whether a steal is to be
      retried. -/
  | searching (passed : Queue W → Bool) (retry : Bool)
  /-- The search has returned a task; `work_found` is next. -/
  | found
  /-- `work_found`: about to unregister. The flag tells whether this was the
      last searcher. -/
  | leaving (last : Bool)
  /-- `work_found` of the last searcher: about to load `sleepers`. -/
  | baton
  /-- `work_found` of the last searcher: `wake_one`. -/
  | waking (x : Waking)
  /-- `no_work_found` is next. -/
  | noWork (retry : Bool)
  /-- `try_search`, after `searching` was incremented; `n` was its value. -/
  | trying (n : Int) (retry : Bool)
  /-- `try_search`, over the cap: about to take the increment back. -/
  | overCap (retry : Bool)
  /-- About to call `no_work_found` of `ParkIdle`. -/
  | parkNow
  /-- Counted in `sleepers`; about to load `epoch`. -/
  | registering
  /-- `FutexWait`: about to load `epoch`. -/
  | waitLoad (timed : Bool)
  /-- `FutexWait`: about to load `finished`. -/
  | waitFinished (timed : Bool)
  /-- `FutexWait`: in the kernel, about to compare. -/
  | waitCompare (timed : Bool)
  /-- `CondvarWait`: about to check under the lock. -/
  | waitLock (timed : Bool)
  | blocked (timed : Bool)
  /-- The wait has returned; about to unregister. -/
  | returned
  /-- The loop has ended. -/
  | exited

/-- A worker and its episode. `ticket` is the epoch it has registered at,
    `since` whether `search_since` is set. -/
structure Worker (W : Type*) where
  pc : Pc W
  ticket : Option Nat
  rounds : Nat
  since : Bool
  parking : Bool

/-- The first episode. -/
def Worker.fresh {W : Type*} : Worker W where
  pc := .head
  ticket := none
  rounds := 0
  since := false
  parking := false

/-- What a visit to a queue tells the search. -/
inductive Visit where
  | take
  | empty
  /-- There was something, but it could not be taken. -/
  | retry
  deriving DecidableEq, Repr

/-- What a worker does next. In most places there is only one thing to do. -/
inductive Step (W : Type*) where
  /-- Go on. `spin` is whether a searcher is to go on by its clock, `timed`
      whether a wait has a timeout. -/
  | go (spin timed : Bool)
  | visit (q : Queue W) (v : Visit)
  /-- The search returns without a task. -/
  | giveUp
  /-- The task that runs takes another one while it waits. -/
  | help (q : Queue W)
  deriving DecidableEq, Repr

/-- What a worker can read of the shared state. -/
structure View where
  epoch : Nat
  finished : Bool
  sleepers : Int
  searching : Int
  workers : Nat

/-- What a step does to the worker, to the counters and to the queues. -/
structure Effect (W : Type*) where
  worker : Worker W
  sleepers : Int := 0
  searching : Int := 0
  epoch : Nat := 0
  taken : Option (Queue W) := none

/-- Rounds in which a worker without work spins. -/
def spinRounds : Nat := 64
/-- Rounds in which it yields to the system. -/
def yieldRounds : Nat := 64

/-- `epoch == seen`, on the 32 bits that are stored. -/
def unchanged (epoch seen : Nat) : Bool :=
  epoch % 2 ^ 32 == seen % 2 ^ 32

variable {W : Type*}

/-- Put a worker in another place. -/
def Worker.moveTo (wk : Worker W) (pc : Pc W) : Worker W :=
  { wk with pc := pc }

/-- Where `wake_one` continues after the bump. -/
def ParkWait.afterBump : ParkWait → Waking
  | .futex => .notify
  | .condvar => .pass

/-- Where a wait begins. -/
def ParkWait.start : ParkWait → Bool → Pc W
  | .futex, timed => .waitLoad timed
  | .condvar, timed => .waitLock timed

/-- Where a blocked worker continues. `CondvarWait::wait` checks again;
    `wait_timeout` does not. -/
def ParkWait.resume : ParkWait → Bool → Pc W
  | .condvar, false => .waitLock false
  | .condvar, true | .futex, _ => .returned

/-- `no_work_found` of `ParkIdle`, up to its first atomic operation. -/
def parkNoWork (c : Config) (wk : Worker W) (timed : Bool) : Effect W :=
  match wk.ticket with
  | some _ => { worker := wk.moveTo (c.wait.start timed) }
  | none =>
      if wk.rounds + 1 ≤ spinRounds + yieldRounds then
        { worker := { wk with pc := .head, rounds := wk.rounds + 1 } }
      else
        { worker := { wk with pc := .registering, rounds := wk.rounds + 1 }, sleepers := 1 }

/-- `start_parking`. -/
def Worker.startParking (wk : Worker W) : Worker W :=
  { wk with pc := .parkNow, parking := true, rounds := spinRounds + yieldRounds }

/-- `no_work_found` of `SearchIdle`, up to its first atomic operation. -/
def searchNoWork (c : Config) (v : View) (wk : Worker W) (retry spin timed : Bool) : Effect W :=
  if retry then
    if !wk.since && !wk.parking then
      { worker := wk.moveTo (.trying v.searching true), searching := 1 }
    else { worker := wk.moveTo .head }
  else if wk.parking then parkNoWork c wk timed
  else if !wk.since then
    { worker := wk.moveTo (.trying v.searching false), searching := 1 }
  else if (wk.rounds + 1) % 16 ≠ 0 ∨ spin = true then
    { worker := { wk with pc := .head, rounds := wk.rounds + 1 } }
  else { worker := { wk with since := false }.startParking, searching := -1 }

/-- `unregister`, with the end of `SearchIdle`'s `no_work_found`. -/
def Worker.unregister (wk : Worker W) (pc : Pc W) : Effect W :=
  { worker :=
      { wk with
        pc := pc
        ticket := none
        rounds := 0
        parking := false }
    sleepers := if wk.ticket.isSome then -1 else 0 }

/-- `epoch` is still what the ticket says. -/
def Worker.unchanged (v : View) (wk : Worker W) : Bool :=
  wk.ticket.any (Idle.unchanged v.epoch)

/-- `work_found`, up to its first atomic operation. -/
def workFound (c : Config) (v : View) (wk : Worker W) : Effect W :=
  match c.policy with
  | .park => { worker := wk.moveTo (.leaving false) }
  | .search =>
      let stopped := { wk with since := false, parking := false }
      if wk.since then
        { worker := stopped.moveTo (.leaving (v.searching == 1)), searching := -1 }
      else { worker := stopped.moveTo (.leaving false) }

/-- The only thing to do next. -/
def Worker.go (c : Config) (v : View) (spin timed : Bool) (wk : Worker W) : Effect W :=
  match wk.pc with
  | .running => { worker := wk.moveTo .head }
  | .head =>
      { worker := wk.moveTo (if v.finished then .exited else .searching (fun _ => false) false) }
  | .found => workFound c v wk
  | .leaving last => wk.unregister (if last then .baton else .running)
  | .baton => { worker := wk.moveTo (if v.sleepers = 0 then .running else .waking .bump) }
  | .waking .bump => { worker := wk.moveTo (.waking c.wait.afterBump), epoch := 1 }
  | .waking .pass => { worker := wk.moveTo (.waking .notify) }
  | .noWork retry =>
      match c.policy with
      | .park => if retry then { worker := wk.moveTo .head } else parkNoWork c wk timed
      | .search => searchNoWork c v wk retry spin timed
  | .trying n retry =>
      if n < c.cap v.workers v.sleepers.toNat n.toNat then
        { worker := { wk with pc := .head, since := true, rounds := 0 } }
      else { worker := wk.moveTo (.overCap retry) }
  | .overCap retry =>
      { worker := if retry then wk.moveTo .head else wk.startParking, searching := -1 }
  | .parkNow => parkNoWork c wk timed
  | .registering => { worker := { wk with pc := .head, ticket := some v.epoch } }
  | .waitLoad timed =>
      { worker := wk.moveTo (if wk.unchanged v then .waitFinished timed else .returned) }
  | .waitFinished timed =>
      { worker := wk.moveTo (if v.finished then .returned else .waitCompare timed) }
  | .waitCompare timed =>
      { worker := wk.moveTo (if wk.unchanged v then .blocked timed else .returned) }
  | .waitLock timed =>
      { worker := wk.moveTo
          (if wk.unchanged v && !v.finished then .blocked timed else .returned) }
  | .blocked timed => { worker := wk.moveTo (c.wait.resume timed) }
  | .returned => wk.unregister .head
  | .searching _ _ | .waking .notify | .exited => { worker := wk }

/-- The places where there is only one thing to do, and it concerns nobody
    else. -/
def Pc.goes : Pc W → Bool
  | .searching _ _ | .waking .notify | .exited => false
  | .running | .head | .found | .leaving _ | .baton | .waking .bump | .waking .pass | .noWork _
  | .trying _ _ | .overCap _ | .parkNow | .registering | .waitLoad _ | .waitFinished _
  | .waitCompare _ | .waitLock _ | .blocked _ | .returned => true

/-- The points at which the code on a worker may push to the worker's queue: a
    task, or a duty run before the worker registers. -/
def Worker.mayPush (wk : Worker W) : Bool :=
  match wk.pc with
  | .running => true
  | .noWork _ => wk.ticket.isNone
  | _ => false

/-- A search that found nothing may stop, unless the worker is registered: then
    it has to have looked at the worker's own queue and the external one. -/
def Worker.mayGiveUp (w : W) (wk : Worker W) : Bool :=
  match wk.pc with
  | .searching passed retry => retry || wk.ticket.isNone || (passed (some w) && passed none)
  | _ => false

/-- The worker can take the step. -/
def Worker.ready (w : W) (queue : Queue W → Nat) (wk : Worker W) : Step W → Bool
  | .go _ _ => wk.pc.goes
  | .visit q v =>
      match wk.pc, v with
      | .searching _ _, .take => 0 < queue q
      | .searching _ _, .empty => queue q == 0
      | .searching _ _, .retry => true
      | _, _ => false
  | .giveUp => wk.mayGiveUp w
  | .help q =>
      match wk.pc with
      | .running => 0 < queue q
      | _ => false

/-- What the step does. -/
def Worker.step [DecidableEq W] (c : Config) (v : View) (wk : Worker W) : Step W → Effect W
  | .go spin timed => wk.go c v spin timed
  | .visit q x =>
      match wk.pc, x with
      | .searching _ _, .take => { worker := wk.moveTo .found, taken := some q }
      | .searching passed retry, .empty =>
          { worker := wk.moveTo (.searching (Function.update passed q true) retry) }
      | .searching passed _, .retry => { worker := wk.moveTo (.searching passed true) }
      | _, _ => { worker := wk }
  | .giveUp =>
      match wk.pc with
      | .searching _ retry => { worker := wk.moveTo (.noWork retry) }
      | _ => { worker := wk }
  | .help q => { worker := wk, taken := some q }

/-- How far a `new_work` has come, for a task pushed to a queue. -/
inductive ProducerPc (W : Type*) where
  | idle
  /-- `SearchIdle`: about to load `searching`. -/
  | loadSearching (q : Queue W)
  | loadSleepers (q : Queue W)
  /-- `wake_one`. -/
  | waking (q : Queue W) (x : Waking)
  deriving DecidableEq, Repr

/-- How far `finish` has come. -/
inductive Closing where
  | running
  | waking (x : Waking)
  | done
  deriving DecidableEq, Repr

/-- The workers, the producers, the queues and the words that they share. -/
structure State (W P : Type*) where
  worker : W → Worker W
  producer : P → ProducerPc W
  /-- How many tasks are queued. -/
  queue : Queue W → Nat
  sleepers : Int
  searching : Int
  epoch : Nat
  finished : Bool
  closing : Closing

/-- The steps of workers, of `new_work` and of `finish`. -/
inductive Action (W P : Type*) where
  | work (w : W) (st : Step W)
  /-- `wake_one` of a worker wakes a blocked worker, if there is one. -/
  | notify (w : W) (target : Option W)
  /-- A task is pushed; `new_work` is next. -/
  | publish (p : P) (q : Queue W)
  | loadSearching (p : P) (q : Queue W)
  | loadSleepers (p : P) (q : Queue W)
  | bump (p : P) (q : Queue W)
  | pass (p : P) (q : Queue W)
  /-- `wake_one` of a producer. -/
  | wakeOne (p : P) (q : Queue W) (target : Option W)
  /-- `finish`: the store to `finished`. -/
  | finish
  /-- `shutdown`. -/
  | closeBump
  | closePass
  | wakeAll
  deriving DecidableEq, Repr

variable {P : Type*}

/-- What a worker can load. -/
def State.view [Fintype W] (s : State W P) : View where
  epoch := s.epoch
  finished := s.finished
  sleepers := s.sleepers
  searching := s.searching
  workers := Fintype.card W

/-- The worker is asleep. -/
def Pc.isBlocked : Pc W → Bool
  | .blocked _ => true
  | _ => false

/-- The worker is about to wake another. -/
def Pc.notifies : Pc W → Bool
  | .waking .notify => true
  | _ => false

/-- A blocked worker is woken. -/
def Worker.wake (c : Config) (wk : Worker W) : Worker W :=
  match wk.pc with
  | .blocked timed => wk.moveTo (c.wait.resume timed)
  | _ => wk

/-- Only a blocked worker can be woken, and one is if there is any. -/
def State.canWake (s : State W P) : Option W → Prop
  | some t => (s.worker t).pc.isBlocked = true
  | none => ∀ t, (s.worker t).pc.isBlocked = false

section

variable [DecidableEq W] [DecidableEq P]

/-- Wake a worker, if there is one to wake. -/
def State.wake (c : Config) (s : State W P) : Option W → State W P
  | some t => { s with worker := Function.update s.worker t ((s.worker t).wake c) }
  | none => s

/-- Put a producer in another place. -/
def State.setProducer (s : State W P) (p : P) (pc : ProducerPc W) : State W P :=
  { s with producer := Function.update s.producer p pc }

/-- The effect of a worker's step on the whole. -/
def State.apply (s : State W P) (w : W) (e : Effect W) : State W P :=
  { s with
    worker := Function.update s.worker w e.worker
    sleepers := s.sleepers + e.sleepers
    searching := s.searching + e.searching
    epoch := s.epoch + e.epoch
    queue := match e.taken with
      | some q => Function.update s.queue q (s.queue q - 1)
      | none => s.queue }

variable [Fintype W] (c : Config)

/-- When an action can be taken. -/
def guard (s : State W P) : Action W P → Prop
  | .work w st => (s.worker w).ready w s.queue st = true
  | .notify w target =>
      (s.worker w).pc.notifies = true ∧ s.canWake target
  | .publish p q =>
      s.producer p = .idle ∧ q.all (fun w => (s.worker w).mayPush) = true
  | .loadSearching p q => s.producer p = .loadSearching q
  | .loadSleepers p q => s.producer p = .loadSleepers q
  | .bump p q => s.producer p = .waking q .bump
  | .pass p q => s.producer p = .waking q .pass
  | .wakeOne p q target => s.producer p = .waking q .notify ∧ s.canWake target
  | .finish => s.closing = .running
  | .closeBump => s.closing = .waking .bump
  | .closePass => s.closing = .waking .pass
  | .wakeAll => s.closing = .waking .notify

/-- What an action does. -/
def next (s : State W P) : Action W P → State W P
  | .work w st => s.apply w ((s.worker w).step c s.view st)
  | .notify w target =>
      let s' := s.wake c target
      { s' with worker := Function.update s'.worker w ((s'.worker w).moveTo .running) }
  | .publish p q =>
      { s.setProducer p
          (match c.policy with | .park => .loadSleepers q | .search => .loadSearching q) with
        queue := Function.update s.queue q (s.queue q + 1) }
  | .loadSearching p q =>
      s.setProducer p (if s.searching = 0 then .loadSleepers q else .idle)
  | .loadSleepers p q =>
      s.setProducer p (if s.sleepers = 0 then .idle else .waking q .bump)
  | .bump p q =>
      { s.setProducer p (.waking q c.wait.afterBump) with epoch := s.epoch + 1 }
  | .pass p q => s.setProducer p (.waking q .notify)
  | .wakeOne p _ target => (s.wake c target).setProducer p .idle
  | .finish => { s with finished := true, closing := .waking .bump }
  | .closeBump =>
      { s with epoch := s.epoch + 1, closing := .waking c.wait.afterBump }
  | .closePass => { s with closing := .waking .notify }
  | .wakeAll => { s with worker := fun w => (s.worker w).wake c, closing := .done }

/-- All workers at their loop and nobody registered. Tasks may be queued. -/
def init (s : State W P) : Prop :=
  (∀ w, s.worker w = .fresh) ∧ (∀ p, s.producer p = .idle) ∧ s.sleepers = 0 ∧ s.searching = 0 ∧
  s.epoch = 0 ∧ s.finished = false ∧ s.closing = .running

/-- The policy as a guarded transition system. -/
def system : System (State W P) (Action W P) where
  init := init
  guard := guard
  next := next c

instance (s : State W P) (target : Option W) : Decidable (s.canWake target) :=
  match target with
  | some _ => inferInstanceAs (Decidable (_ = _))
  | none => inferInstanceAs (Decidable (∀ _, _))

instance (s : State W P) : ∀ a : Action W P, Decidable (guard s a)
  | .notify .. | .publish .. | .wakeOne .. => inferInstanceAs (Decidable (_ ∧ _))
  | .work .. | .loadSearching .. | .loadSleepers .. | .bump .. | .pass .. | .finish
  | .closeBump | .closePass | .wakeAll => inferInstanceAs (Decidable (_ = _))

instance decidableSystemGuard (s : State W P) (a : Action W P) :
    Decidable ((system (W := W) (P := P) c).guard s a) :=
  inferInstanceAs (Decidable (guard s a))

end

/-- No operation of the policy is in flight on the worker, other than a blocked
    wait. -/
def Pc.quiet : Pc W → Bool
  | .running | .head | .searching _ _ | .blocked _ | .exited => true
  | .found | .leaving _ | .baton | .waking _ | .noWork _ | .trying _ _ | .overCap _ | .parkNow
  | .registering | .waitLoad _ | .waitFinished _ | .waitCompare _ | .waitLock _
  | .returned => false

/-- No operation of the policy is in flight, other than blocked waits. -/
structure Quiet (s : State W P) : Prop where
  workers : ∀ w, (s.worker w).pc.quiet = true
  producers : ∀ p, s.producer p = .idle

/-- No ticket is older than the epoch can tell. -/
def NoWrap (s : State W P) : Prop :=
  ∀ w seen, (s.worker w).ticket = some seen → s.epoch < seen + 2 ^ 32

section

-- The proofs take these apart in parallel: their equations are made here, once.
attribute [local simp] Worker.step Worker.ready

end

end Idle

end Cmpth

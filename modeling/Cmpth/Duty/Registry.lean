import Mathlib.Data.List.Basic
import Mathlib.Logic.Function.Basic
import Mathlib.Tactic.Common
import Cmpth.Core.System

/-!
# The Registry of Duties

Duties with their periods, waiters and deadlines, the keeper that sleeps until
the earliest of them is due, and the idle workers that run them before that.

A step is a store to shared memory, or a section under the lock in which nothing
else is stored. What a step computes from loads it loads at once, with two
exceptions that matter: `replan` loads the due time before the plan, and the
keeper loads `timed_until` before `timed`. A poll may do anything a thread can
do; those steps are taken by threads. The readings of the clock are part of the
actions, and nothing is assumed of them except that they are 64-bit times before
`NEVER`.

## Main definitions

* `Inner`: A duty, with `due`, `halfDue` and what `touch` and `run` store.
* `State`, `Action`, `system`: The registry as a guarded transition system.
-/

namespace Cmpth

namespace Duty

/-- "Never" as a time or a period. -/
def NEVER : Nat := 2 ^ 64 - 1

/-- Polls in a row that did nothing before a duty's period doubles. -/
def IDLE_POLLS : Nat := 50

/-- How often an idle worker runs a duty that has waiters. -/
def EAGER_NS : Nat := 1000

/-- How long past a timed worker's wake-up time the keeper still trusts it. -/
def TIMED_SLACK : Nat := 1000000

/-- `u64::saturating_add`. -/
def saturatingAdd (a b : Nat) : Nat :=
  min (a + b) NEVER

/-- `u64::saturating_mul`. -/
def saturatingMul (a b : Nat) : Nat :=
  min (a * b) NEVER

/-- `u64::wrapping_sub`. -/
def wrappingSub (a b : Nat) : Nat :=
  (a + 2 ^ 64 - b) % 2 ^ 64

/-- A duration in nanoseconds. -/
def ns (d : Nat) : Nat :=
  min d (NEVER - 1)

/-- Who may run a duty. -/
inductive DutyPlace where
  /-- Any thread, including a worker's idle loop. -/
  | anywhere
  /-- The keeper only. -/
  | keeper
  deriving DecidableEq, Repr

/-- A duty. `period` is between `minPeriod` and `maxPeriod`, the code's `min`
    and `max`. -/
structure Inner where
  place : DutyPlace
  last : Nat
  period : Nat
  minPeriod : Nat
  maxPeriod : Nat
  waitPeriod : Nat
  waiters : Nat
  deadline : Nat
  idlePolls : Nat
  deriving DecidableEq, Repr

namespace Inner

/-- The period, which is capped while somebody waits. -/
def effectivePeriod (i : Inner) : Nat :=
  if i.waiters ≠ 0 then min i.period i.waitPeriod else i.period

/-- When the keeper must run it. -/
def due (i : Inner) : Nat :=
  min (saturatingAdd i.last i.effectivePeriod) i.deadline

/-- When an idle worker may run it. -/
def halfDue (i : Inner) : Nat :=
  min (saturatingAdd i.last (if i.waiters ≠ 0 then EAGER_NS else i.effectivePeriod / 2)) i.deadline

/-- `touch` stores only when it moves the due time noticeably. -/
def stale (i : Inner) (now : Nat) : Prop :=
  wrappingSub now i.last > min i.minPeriod i.waitPeriod / 4

instance (i : Inner) (now : Nat) : Decidable (i.stale now) :=
  inferInstanceAs (Decidable (_ > _))

/-- `touch` resets the period to the minimum it has loaded. -/
def resetPeriod (i : Inner) (minPeriod : Nat) : Inner :=
  if i.period ≠ minPeriod then
    { i with
      period := minPeriod
      idlePolls := 0 }
  else i

/-- What `run` stores after the poll, with the bounds it has loaded. -/
def finishRun (i : Inner) (did : Bool) (minPeriod maxPeriod : Nat) : Inner :=
  if did = true then
    { i with
      period := minPeriod
      idlePolls := 0 }
  else if maxPeriod > minPeriod then
    if i.idlePolls + 1 ≥ IDLE_POLLS then
      { i with
        period := min (saturatingMul i.period 2) maxPeriod
        idlePolls := 0 }
    else { i with idlePolls := i.idlePolls + 1 }
  else i

end Inner

/-- What a duty is registered or set with: `Some((period, max_period))` or
    `None`. -/
def bounds : Option (Nat × Nat) → Nat × Nat
  | some (period, maxPeriod) => (max (ns period) 1000, max (ns maxPeriod) (max (ns period) 1000))
  | none => (NEVER, NEVER)

/-- `DutyRegistry::duty` and `DutyRegistry::on_demand`, up to the
    registration. -/
def newInner (place : DutyPlace) (now : Nat) : Option (Nat × Nat) → Nat → Inner
  | period, waitPeriod =>
      { place := place
        last := now
        period := (bounds period).1
        minPeriod := (bounds period).1
        maxPeriod := (bounds period).2
        waitPeriod := if period = none then max (ns waitPeriod) 1000 else (bounds period).1
        waiters := 0
        deadline := NEVER
        idlePolls := 0 }

/-- Where `run` is, which whoever calls it goes through under the lock. -/
inductive Run where
  /-- The deadline is cleared; the poll runs. -/
  | polling
  /-- `last` is stored and the bounds are loaded. -/
  | polled (did : Bool) (minPeriod maxPeriod : Nat)
  deriving DecidableEq, Repr

/-- A round of the keeper: what it has read, and the promise of a timed worker
    it relies on. -/
structure Round where
  now : Nat
  mine : Nat
  any : Nat
  trusted : Option Nat
  deriving DecidableEq, Repr

/-- The plan of a round. -/
def Round.next (r : Round) : Nat :=
  min r.mine
    (match r.trusted with
    | none => r.any
    | some promise => saturatingAdd promise TIMED_SLACK)

/-- Where the keeper is. -/
inductive KeeperPc (D : Type*) where
  | unborn
  /-- About to store that there is no plan. -/
  | start
  /-- About to take the lock. -/
  | locking
  | visiting (now : Nat) (rest : List D) (mine any : Nat)
  | running (run : Run) (now : Nat) (d : D) (rest : List D) (mine any : Nat)
  /-- About to load the due time of the duty it has run. -/
  | ran (now : Nat) (d : D) (rest : List D) (mine any : Nat)
  /-- About to load `timed_until`. -/
  | planning (now mine any : Nat)
  /-- About to load `timed`. -/
  | covering (now mine any promise : Nat)
  | storing (r : Round)
  | parking (r : Round)
  | parked (r : Round)
  deriving DecidableEq, Repr

/-- Where a thread is in its operation. -/
inductive ThreadPc (D : Type*) where
  | idle
  /-- `register`: about to see that there is a keeper. -/
  | registering (d : D)
  /-- `replan`: about to load the due time. -/
  | replanning (d : D)
  /-- `replan`: about to load the plan. -/
  | comparing (d : D) (due : Nat)
  | unparking
  /-- `touch`: about to reset the period. -/
  | touching (d : D) (minPeriod : Nat)
  /-- `set_period`: about to store the period. -/
  | bounding (d : D) (minPeriod : Nat)
  /-- `idle_slow`, with the duties still to look at. -/
  | sweeping (now : Nat) (rest : List D)
  | running (run : Run) (now : Nat) (d : D) (rest : List D)
  /-- `park_timeout`: about to take the role or to renew it. -/
  | offering (next : Nat)
  /-- `park_timeout`: about to swap `timed`. -/
  | taking (next promise : Nat)
  /-- `park_timeout`: about to store `timed_until`. -/
  | promising (next : Nat)
  /-- `release_timed`: about to store `timed_until`. -/
  | leaving
  /-- `release_timed`: about to clear `timed`. -/
  | releasing
  deriving DecidableEq, Repr

/-- The registry. `holds` is the flag of a worker's episode, `*timed`, and
    `token` that of the keeper's thread. -/
structure State (D T : Type*) where
  inner : D → Inner
  born : D → Bool
  reg : List D
  lock : Bool
  active : Nat
  halfDue : Nat
  planned : Nat
  timed : Bool
  timedUntil : Nat
  keeper : KeeperPc D
  token : Bool
  pc : T → ThreadPc D
  holds : T → Bool

/-- The operations on duties, and the steps of threads and of the keeper. -/
inductive Action (D T : Type*) where
  /-- `register`: the push. -/
  | register (t : T) (d : D) (place : DutyPlace) (period : Option (Nat × Nat))
      (waitPeriod now : Nat)
  | touch (t : T) (d : D) (now : Nat)
  /-- `DutyWaiter::new`. -/
  | waiter (t : T) (d : D)
  | dropWaiter (d : D)
  /-- `set_period`, up to the store of the period. -/
  | setPeriod (t : T) (d : D) (period : Option (Nat × Nat))
  | setWaitPeriod (t : T) (d : D) (period : Nat)
  | setDeadline (t : T) (d : D) (time : Nat)
  /-- `Duty::drop`. -/
  | drop (d : D)
  /-- `run_idle`, up to the lock. -/
  | runIdle (t : T) (now : Nat)
  /-- `park_timeout`: the section under the lock. -/
  | park (t : T)
  /-- `idle_done`, of the worker's own role, or `release_timed`. -/
  | release (t : T) (own : Bool)
  /-- A poll lowers the deadline of its own duty directly (`fire_timers`): one
      that a thread runs, or one that the keeper runs. -/
  | requeue (runner : Option T) (d : D) (time : Nat)
  /-- A thread's operation takes its next step. -/
  | step (t : T) (now : Nat) (did : Bool)
  /-- The next step of the keeper. -/
  | keeper (now : Nat) (did : Bool)
  /-- The keeper's park ends without a request. -/
  | timeout
  deriving DecidableEq, Repr

variable {D T : Type*}

/-- The least of the due times of the duties that may run anywhere. -/
def leastAnywhere (time : Inner → Nat) (s : State D T) : Nat :=
  s.reg.foldr
    (fun d least => if (s.inner d).place = .anywhere then min (time (s.inner d)) least else least)
    NEVER

section

variable [DecidableEq D] [DecidableEq T]

/-- Store a duty. -/
def State.setInner (s : State D T) (d : D) (i : Inner) : State D T :=
  { s with inner := Function.update s.inner d i }

/-- Put a thread in another place. -/
def State.setPc (s : State D T) (t : T) (pc : ThreadPc D) : State D T :=
  { s with pc := Function.update s.pc t pc }

/-- The first of two steps of `run`: the deadline is cleared before the poll. -/
def State.beginRun (s : State D T) (d : D) : State D T :=
  s.setInner d { s.inner d with deadline := NEVER }

/-- Store when a duty has last run. -/
def State.storeLast (s : State D T) (d : D) (now : Nat) : State D T :=
  s.setInner d { s.inner d with last := now }

/-- The next step of a thread's operation. -/
def State.threadStep (s : State D T) (t : T) (now' : Nat) (did : Bool) : State D T :=
  match s.pc t with
  | .idle => s
  | .registering d =>
      { s.setPc t (.replanning d) with
        keeper := if s.keeper = .unborn then .start else s.keeper }
  | .replanning d =>
      { s.setPc t (.comparing d (s.inner d).due) with
        halfDue := if (s.inner d).place = .anywhere then min s.halfDue (s.inner d).halfDue
          else s.halfDue }
  | .comparing _ due => s.setPc t (if due < s.planned then .unparking else .idle)
  | .unparking => { s.setPc t .idle with token := true }
  | .touching d minPeriod => (s.setInner d ((s.inner d).resetPeriod minPeriod)).setPc t .idle
  | .bounding d minPeriod =>
      (s.setInner d
        { s.inner d with
          period := minPeriod
          idlePolls := 0 }).setPc t (.replanning d)
  | .sweeping now (d :: rest) =>
      if (s.inner d).place = .anywhere ∧ now ≥ (s.inner d).halfDue then
        (s.beginRun d).setPc t (.running .polling now d rest)
      else s.setPc t (.sweeping now rest)
  | .sweeping _ [] =>
      { s.setPc t .idle with
        halfDue := leastAnywhere Inner.halfDue s
        lock := false }
  | .running .polling now d rest =>
      (s.storeLast d now').setPc t
        (.running (.polled did (s.inner d).minPeriod (s.inner d).maxPeriod) now d rest)
  | .running (.polled did minPeriod maxPeriod) now d rest =>
      (s.setInner d ((s.inner d).finishRun did minPeriod maxPeriod)).setPc t (.sweeping now rest)
  | .offering next =>
      if s.holds t = true then { s.setPc t (.promising next) with timed := true }
      else s.setPc t (.taking next s.timedUntil)
  | .taking next promise =>
      if s.timed = true ∧ (promise = NEVER ∨ now' < saturatingAdd promise TIMED_SLACK) then
        s.setPc t .idle
      else
        { s.setPc t (.promising next) with
          timed := true
          holds := Function.update s.holds t true }
  | .promising next => { s.setPc t .idle with timedUntil := next }
  | .leaving => { s.setPc t .releasing with timedUntil := NEVER }
  | .releasing => { s.setPc t .unparking with timed := false }

/-- The keeper takes a due time into account. -/
def account (place : DutyPlace) (due mine any : Nat) : Nat × Nat :=
  match place with
  | .keeper => (min mine due, any)
  | .anywhere => (mine, min any due)

/-- The next step of the keeper. -/
def State.keeperStep (s : State D T) (now' : Nat) (did : Bool) : State D T :=
  match s.keeper with
  | .unborn => s
  | .start =>
      { s with
        planned := NEVER
        keeper := .locking }
  | .locking =>
      { s with
        lock := true
        keeper := .visiting now' s.reg NEVER NEVER }
  | .visiting now (d :: rest) mine any =>
      if now ≥ (s.inner d).due then
        { s.beginRun d with keeper := .running .polling now d rest mine any }
      else
        { s with
          keeper := .visiting now rest (account (s.inner d).place (s.inner d).due mine any).1
            (account (s.inner d).place (s.inner d).due mine any).2 }
  | .visiting now [] mine any =>
      { s with
        halfDue := leastAnywhere Inner.halfDue s
        keeper := .planning now mine any }
  | .running .polling now d rest mine any =>
      { s.storeLast d now' with
        keeper := .running (.polled did (s.inner d).minPeriod (s.inner d).maxPeriod) now d rest
          mine any }
  | .running (.polled did minPeriod maxPeriod) now d rest mine any =>
      { s.setInner d ((s.inner d).finishRun did minPeriod maxPeriod) with
        keeper := .ran now d rest mine any }
  | .ran now d rest mine any =>
      { s with
        keeper := .visiting now rest (account (s.inner d).place (s.inner d).due mine any).1
          (account (s.inner d).place (s.inner d).due mine any).2 }
  | .planning now mine any => { s with keeper := .covering now mine any s.timedUntil }
  | .covering now mine any promise =>
      { s with
        keeper := .storing
          { now := now
            mine := mine
            any := any
            trusted := if s.timed = true ∧ any ≥ promise ∧ promise ≠ NEVER then some promise
              else none } }
  | .storing r =>
      { s with
        planned := r.next
        lock := false
        keeper := .parking r }
  | .parking r =>
      if s.token = true then
        { s with
          token := false
          keeper := .start }
      else { s with keeper := .parked r }
  | .parked _ =>
      { s with
        token := false
        keeper := .start }

/-- The keeper can go on. -/
def State.keeperReady (s : State D T) : Bool :=
  match s.keeper with
  | .unborn => false
  | .locking => !s.lock
  | .parked _ => s.token
  | _ => true

/-- The keeper is asleep. -/
def KeeperPc.asleep : KeeperPc D → Bool
  | .parked _ => true
  | _ => false

/-- The duty whose poll runs. -/
def KeeperPc.poll : KeeperPc D → Option D
  | .running .polling _ d _ _ _ => some d
  | _ => none

/-- The duty whose closure a thread is calling. -/
def ThreadPc.poll : ThreadPc D → Option D
  | .running .polling _ d _ => some d
  | _ => none

/-- When an action can be taken. -/
def guard (s : State D T) : Action D T → Prop
  | .register t d _ _ _ now => s.pc t = .idle ∧ s.born d = false ∧ s.lock = false ∧ now < NEVER
  | .touch t d now => s.pc t = .idle ∧ s.born d = true ∧ now < NEVER
  | .waiter t d | .setPeriod t d _ | .setWaitPeriod t d _ => s.pc t = .idle ∧ s.born d = true
  | .dropWaiter d => (s.inner d).waiters ≠ 0
  | .setDeadline t d time => s.pc t = .idle ∧ s.born d = true ∧ time ≤ NEVER
  | .drop d => d ∈ s.reg ∧ s.lock = false
  | .runIdle t now =>
      s.pc t = .idle ∧ s.active ≠ 0 ∧ now ≥ s.halfDue ∧ s.lock = false ∧ now < NEVER
  | .park t => s.pc t = .idle ∧ s.active ≠ 0 ∧ s.lock = false
  | .release t _ => s.pc t = .idle
  | .requeue none d _ => s.keeper.poll = some d
  | .requeue (some t) d _ => (s.pc t).poll = some d
  | .step t now _ => s.pc t ≠ .idle ∧ now < NEVER
  | .keeper now _ => s.keeperReady = true ∧ now < NEVER
  | .timeout => s.keeper.asleep = true

instance (s : State D T) : ∀ a, Decidable (guard s a)
  | .register .. => inferInstanceAs (Decidable (_ ∧ _ ∧ _ ∧ _))
  | .touch .. | .setDeadline .. | .park _ => inferInstanceAs (Decidable (_ ∧ _ ∧ _))
  | .waiter .. | .setPeriod .. | .setWaitPeriod .. | .drop _ | .step .. | .keeper .. =>
      inferInstanceAs (Decidable (_ ∧ _))
  | .runIdle .. => inferInstanceAs (Decidable (_ ∧ _ ∧ _ ∧ _ ∧ _))
  | .dropWaiter d => inferInstanceAs (Decidable ((s.inner d).waiters ≠ 0))
  | .release t _ => inferInstanceAs (Decidable (s.pc t = .idle))
  | .requeue none d _ => inferInstanceAs (Decidable (s.keeper.poll = some d))
  | .requeue (some t) d _ => inferInstanceAs (Decidable ((s.pc t).poll = some d))
  | .timeout => inferInstanceAs (Decidable (s.keeper.asleep = true))

/-- What an action does. -/
def next (s : State D T) : Action D T → State D T
  | .register t d place period waitPeriod now =>
      { (s.setInner d (newInner place now period waitPeriod)).setPc t (.registering d) with
        born := Function.update s.born d true
        reg := s.reg ++ [d]
        active := s.active + 1 }
  | .touch t d now =>
      if (s.inner d).stale now then
        (s.setInner d { s.inner d with last := now }).setPc t
          (.touching d (s.inner d).minPeriod)
      else s
  | .waiter t d =>
      (s.setInner d { s.inner d with waiters := (s.inner d).waiters + 1 }).setPc t
        (if (s.inner d).waiters = 0 then .replanning d else .idle)
  | .dropWaiter d => s.setInner d { s.inner d with waiters := (s.inner d).waiters - 1 }
  | .setPeriod t d period =>
      (s.setInner d
        { s.inner d with
          minPeriod := (bounds period).1
          maxPeriod := (bounds period).2 }).setPc t (.bounding d (bounds period).1)
  | .setWaitPeriod t d period =>
      (s.setInner d { s.inner d with waitPeriod := max (ns period) 1000 }).setPc t (.replanning d)
  | .setDeadline t d time =>
      (s.setInner d { s.inner d with deadline := time }).setPc t (.replanning d)
  | .drop d =>
      { s with
        reg := s.reg.erase d
        active := s.active - 1 }
  | .runIdle t now => { s.setPc t (.sweeping now s.reg) with lock := true }
  | .park t =>
      if leastAnywhere Inner.due s = NEVER then
        if s.holds t = true then
          { s.setPc t .leaving with holds := Function.update s.holds t false }
        else s
      else s.setPc t (.offering (leastAnywhere Inner.due s))
  | .release t own =>
      { s.setPc t .leaving with
        holds := if own = true then Function.update s.holds t false else s.holds }
  | .requeue _ d time => s.setInner d { s.inner d with deadline := min (s.inner d).deadline time }
  | .step t now did => s.threadStep t now did
  | .keeper now did => s.keeperStep now did
  | .timeout => { s with keeper := .start }

/-- A registry nobody has used. -/
def init (s : State D T) : Prop :=
  (∀ d, s.born d = false) ∧ s.reg = [] ∧ s.lock = false ∧ s.active = 0 ∧ s.halfDue = 0 ∧
  s.planned = NEVER ∧ s.timed = false ∧ s.timedUntil = NEVER ∧ s.keeper = .unborn ∧
  s.token = false ∧ (∀ t, s.pc t = .idle) ∧ ∀ t, s.holds t = false

/-- The registry as a guarded transition system. -/
def system : System (State D T) (Action D T) where
  init := init
  guard := guard
  next := next

instance (s : State D T) (a : Action D T) : Decidable (system.guard s a) :=
  inferInstanceAs (Decidable (guard s a))

end

end Duty

end Cmpth

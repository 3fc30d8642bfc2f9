import Mathlib.Data.Fintype.Basic
import Mathlib.Logic.Function.Basic
import Cmpth.Core.System
import Cmpth.Delegate.Calls

/-!
# `OsDelegator`

The delegator of OS threads: a mutex around the consumer, and a condition variable.

Every caller runs its own request under the mutex. The consumer thread only polls `progress`, and
waits on the condition variable while the consumer is inactive. A caller whose call is deferred
puts its parker into its slot before it drops the guard, and notifies the condition variable after
that.

The mutex goes to anybody who waits for it, and a wait on the condition variable may end for no
reason. `drop` has the delegator to itself: nobody is in a call, and nobody calls any more.

## Main definitions

* `Caller`, `Consumer`, `Closing`: The callers, the consumer thread and `drop`.
* `State`, `Action`, `system`: The delegator as a guarded transition system.
* `uses`: Who uses the object in a step.
* `Contract`: What the delegator promises.
-/

namespace Cmpth

namespace Delegate

namespace OsDelegator

/-- Where a caller is. -/
inductive Pc (Resp : Type*) where
  | idle
  | locking
  /-- Has the mutex; about to run its request. -/
  | executing
  /-- Has the mutex, and its call is deferred; about to put its parker into its slot. -/
  | parking
  /-- About to drop the guard. -/
  | releasing
  /-- About to notify the consumer thread. -/
  | alerting
  | asleep
  /-- Awake; about to clear its slot. -/
  | clearing
  /-- About to take the response. -/
  | taking
  /-- `with_lock`: has the mutex; about to run its closure. -/
  | inside
  /-- About to drop the guard, and to return. -/
  | unlocking
  | returned (v : Option Resp)
  deriving DecidableEq, Repr

/-- Where the consumer thread is. -/
inductive Consumer (K : Type*) where
  | locking
  /-- Has the mutex; at the head of the waiting loop. -/
  | checking
  /-- Waits on the condition variable, notified or not. -/
  | waiting (notified : Bool)
  | progressing
  /-- About to drop the guard, with the caller that `progress` has handed back. -/
  | unlocking (ready : Option K)
  | notifying (k : K)
  /-- `finished` is set; about to drop the guard, and to end. -/
  | leaving
  | done
  deriving DecidableEq, Repr

/-- How far `drop` has come. -/
inductive Closing where
  | running
  | locking
  | alerting
  | joining
  | closed
  deriving DecidableEq, Repr

/-- Who has the mutex. -/
inductive Owner (K : Type*) where
  | nobody
  | caller (k : K)
  | thread
  deriving DecidableEq, Repr

/-- A caller, its slot and its response. `asked` is the request of a `call`; `sth` says that its
    parker is in its slot and `woken` that the parker is ready; `value` is the response it got at
    once, `ran` says that it has had the mutex, and `given` what the consumer answered. -/
structure Caller (Req Resp : Type*) where
  asked : Option Req
  sth : Bool
  woken : Bool
  out : Option Resp
  value : Option Resp
  kept : Kept
  ran : Bool
  given : Option Resp
  pc : Pc Resp

/-- `broken` says that a parker was looked for in an empty slot. `served` has the callers in the
    order in which they had the mutex, and `executed` the requests that were run. -/
structure State (K Req Resp : Type*) where
  owner : Owner K
  consumer : Consumer K
  finished : Bool
  closing : Closing
  caller : K → Caller Req Resp
  broken : Bool
  served : List K
  executed : List (K × Req)

/-- What may happen next, and to whom. -/
inductive Action (K Req Resp : Type*) where
  | call (k : K) (r : Req)
  | withLock (k : K)
  /-- The next step of a caller, with what the consumer answers. -/
  | step (k : K) (a : Answers K Resp)
  /-- The next step of the consumer thread. -/
  | serve (a : Answers K Resp)
  /-- The wait on the condition variable ends for no reason. -/
  | spurious
  /-- A deferred call is completed. -/
  | complete (k : K) (v : Resp)
  /-- The next step of `drop`. -/
  | drop
  deriving DecidableEq, Repr

variable {K Req Resp : Type*}

/-- The caller has the mutex. -/
def Pc.Holds : Pc Resp → Prop
  | .executing | .parking | .releasing | .inside | .unlocking => True
  | .idle | .locking | .alerting | .asleep | .clearing | .taking | .returned _ => False

/-- The caller is to notify the consumer thread. -/
def Pc.Alerts : Pc Resp → Prop
  | .parking | .releasing | .alerting => True
  | .idle | .locking | .executing | .asleep | .clearing | .taking | .inside | .unlocking
    | .returned _ => False

/-- The caller is in no call. -/
def Pc.Rests : Pc Resp → Prop
  | .idle | .returned _ => True
  | .locking | .executing | .parking | .releasing | .alerting | .asleep | .clearing | .taking
    | .inside | .unlocking => False

instance : DecidablePred (Pc.Rests : Pc Resp → Prop)
  | .idle | .returned _ => isTrue trivial
  | .locking | .executing | .parking | .releasing | .alerting | .asleep | .clearing | .taking
    | .inside | .unlocking => isFalse id

/-- The consumer thread has the mutex. -/
def Consumer.Holds : Consumer K → Prop
  | .checking | .progressing | .unlocking _ | .leaving => True
  | .locking | .waiting _ | .notifying _ | .done => False

/-- The consumer thread is about to wake the caller. -/
def Consumer.wakes : Consumer K → Option K
  | .unlocking ready => ready
  | .notifying k => some k
  | .locking | .checking | .waiting _ | .progressing | .leaving | .done => none

/-- `notify_all`. -/
def Consumer.alerted : Consumer K → Consumer K
  | .waiting _ => .waiting true
  | pc => pc

/-- A caller can take its next step. -/
def Pc.CanStep (owner : Owner K) (woken : Bool) : Pc Resp → Prop
  | .idle | .returned _ => False
  | .locking => owner = .nobody
  | .asleep => woken = true
  | .executing | .parking | .releasing | .alerting | .clearing | .taking | .inside
    | .unlocking => True

/-- And the consumer thread. -/
def Consumer.CanServe (owner : Owner K) : Consumer K → Prop
  | .locking | .waiting true => owner = .nobody
  | .waiting false | .done => False
  | .checking | .progressing | .unlocking _ | .notifying _ | .leaving => True

/-- And `drop`, which begins when nobody is in a call. -/
def Closing.CanDrop (s : State K Req Resp) : Closing → Prop
  | .running => ∀ k, (s.caller k).pc.Rests
  | .locking => s.owner = .nobody
  | .alerting => True
  | .joining => s.consumer = .done
  | .closed => False

section

variable [DecidableEq K]

instance (o : Owner K) (w : Bool) : DecidablePred (Pc.CanStep o w : Pc Resp → Prop)
  | .idle | .returned _ => isFalse id
  | .locking => inferInstanceAs (Decidable (o = .nobody))
  | .asleep => inferInstanceAs (Decidable (w = true))
  | .executing | .parking | .releasing | .alerting | .clearing | .taking | .inside
    | .unlocking => isTrue trivial

instance (o : Owner K) : DecidablePred (Consumer.CanServe o)
  | .locking | .waiting true => inferInstanceAs (Decidable (o = .nobody))
  | .waiting false | .done => isFalse id
  | .checking | .progressing | .unlocking _ | .notifying _ | .leaving => isTrue trivial

instance [Fintype K] (s : State K Req Resp) : DecidablePred (Closing.CanDrop s)
  | .running => inferInstanceAs (Decidable (∀ k, (s.caller k).pc.Rests))
  | .locking => inferInstanceAs (Decidable (s.owner = .nobody))
  | .alerting => isTrue trivial
  | .joining => inferInstanceAs (Decidable (s.consumer = .done))
  | .closed => isFalse id

/-- Put a caller's thread in another place. -/
def State.set (s : State K Req Resp) (k : K) (c : Caller Req Resp) : State K Req Resp :=
  { s with caller := Function.update s.caller k c }

/-- The caller has the mutex. -/
def State.acquire (s : State K Req Resp) (k : K) : State K Req Resp :=
  { s.set k
      { s.caller k with pc := if (s.caller k).asked = none then .inside else .executing } with
    owner := .caller k }

/-- `execute`, for a call. -/
def State.execute (s : State K Req Resp) (k : K) (answer : Option Resp) : State K Req Resp :=
  { s.set k
      { s.caller k with
        ran := true
        value := answer
        given := answer
        kept := if answer = none then .deferred else .nothing
        pc := if answer = none then .parking else .unlocking } with
    served := s.served ++ [k]
    executed := s.executed ++ (s.caller k).asked.toList.map (k, ·) }

/-- The next step of a caller. -/
def State.step (s : State K Req Resp) (k : K) (a : Answers K Resp) : State K Req Resp :=
  match (s.caller k).pc with
  | .idle | .returned _ => s
  | .locking => s.acquire k
  | .executing => s.execute k a.execute
  | .parking => s.set k { s.caller k with sth := true, pc := .releasing }
  | .releasing => { s.set k { s.caller k with pc := .alerting } with owner := .nobody }
  | .alerting =>
      { s.set k { s.caller k with pc := .asleep } with consumer := s.consumer.alerted }
  | .asleep => s.set k { s.caller k with pc := .clearing }
  | .clearing => s.set k { s.caller k with sth := false, pc := .taking }
  | .taking => s.set k { s.caller k with pc := .returned (s.caller k).out }
  | .inside =>
      { s.set k { s.caller k with ran := true, pc := .unlocking } with
        served := s.served ++ [k] }
  | .unlocking =>
      { s.set k { s.caller k with pc := .returned (s.caller k).value } with owner := .nobody }

/-- `Ready::notify`: the parker is taken out, and made ready. -/
def State.notify (s : State K Req Resp) (k : K) : State K Req Resp :=
  { s.set k { s.caller k with sth := false, woken := true } with
    broken := s.broken || !(s.caller k).sth }

/-- The next step of the consumer thread. -/
def State.serve (s : State K Req Resp) (a : Answers K Resp) : State K Req Resp :=
  match s.consumer with
  | .locking | .waiting _ => { s with owner := .thread, consumer := .checking }
  | .checking =>
      if s.finished = true then { s with consumer := .leaving }
      else if a.active = true then { s with consumer := .progressing }
      else { s with owner := .nobody, consumer := .waiting false }
  | .progressing =>
      match a.progress with
      | none => { s with consumer := .unlocking none }
      | some k =>
          { s.set k { s.caller k with kept := .nothing } with consumer := .unlocking (some k) }
  | .unlocking ready =>
      { s with
        owner := .nobody
        consumer := match ready with
          | some k => .notifying k
          | none => .locking }
  | .notifying k => { s.notify k with consumer := .locking }
  | .leaving => { s with owner := .nobody, consumer := .done }
  | .done => s

omit [DecidableEq K] in
/-- The next step of `drop`. -/
def State.drop (s : State K Req Resp) : State K Req Resp :=
  match s.closing with
  | .running => { s with closing := .locking }
  | .locking => { s with finished := true, closing := .alerting }
  | .alerting => { s with consumer := s.consumer.alerted, closing := .joining }
  | .joining => { s with closing := .closed }
  | .closed => s

omit [DecidableEq K] in
/-- When an action can be taken: the thread is there, the lock is free, and the
    answers are honest. -/
def guard (s : State K Req Resp) : Action K Req Resp → Prop
  | .call k _ | .withLock k => (s.caller k).pc = .idle ∧ s.closing = .running
  | .step k a =>
      (s.caller k).pc.CanStep s.owner (s.caller k).woken ∧
        a.Honest fun k => (s.caller k).kept
  | .serve a => s.consumer.CanServe s.owner ∧ a.Honest fun k => (s.caller k).kept
  | .spurious => s.consumer = .waiting false
  | .complete k _ => (s.caller k).kept = .deferred
  | .drop => s.closing.CanDrop s

/-- What an action does. -/
def next (s : State K Req Resp) : Action K Req Resp → State K Req Resp
  | .call k r => s.set k { s.caller k with asked := some r, pc := .locking }
  | .withLock k => s.set k { s.caller k with asked := none, pc := .locking }
  | .step k a => s.step k a
  | .serve a => s.serve a
  | .spurious => { s with consumer := s.consumer.alerted }
  | .complete k v =>
      s.set k { s.caller k with out := some v, given := some v, kept := .completed }
  | .drop => s.drop

omit [DecidableEq K] in
/-- `start`. -/
def init (s : State K Req Resp) : Prop :=
  s.owner = .nobody ∧ s.consumer = .locking ∧ s.finished = false ∧ s.closing = .running ∧
  s.broken = false ∧ s.served = [] ∧ s.executed = [] ∧
  ∀ k, (s.caller k).sth = false ∧ (s.caller k).woken = false ∧ (s.caller k).value = none ∧
    (s.caller k).kept = .nothing ∧ (s.caller k).ran = false ∧ (s.caller k).pc = .idle

/-- The delegator as a guarded transition system. -/
def system : System (State K Req Resp) (Action K Req Resp) where
  init := init
  guard := guard
  next := next

instance [Fintype K] [DecidableEq Resp] (s : State K Req Resp) :
    ∀ a, Decidable (system.guard s a)
  | .call _ _ | .withLock _ | .step _ _ | .serve _ => inferInstanceAs (Decidable (_ ∧ _))
  | .spurious => inferInstanceAs (Decidable (s.consumer = .waiting false))
  | .complete k _ => inferInstanceAs (Decidable ((s.caller k).kept = .deferred))
  | .drop => inferInstanceAs (Decidable (s.closing.CanDrop s))

end

/-- Who uses the object: the consumer thread, or a caller. -/
def uses (s : State K Req Resp) : Action K Req Resp → Option (Option K)
  | .call _ _ | .withLock _ | .spurious | .complete _ _ | .drop => none
  | .step k _ =>
      match (s.caller k).pc with
      | .executing | .inside => some (some k)
      | _ => none
  | .serve _ =>
      match s.consumer with
      | .checking | .progressing => some none
      | _ => none

/-- What the delegator promises. -/
structure Contract [DecidableEq K] (s : State K Req Resp) : Prop where
  /-- Only one thread can go on to use the object. -/
  exclusive : ∀ a b u v, guard s a → guard s b → uses s a = some u → uses s b = some v → u = v
  /-- No parker was looked for in an empty slot. -/
  intact : s.broken = false
  /-- Every request is run once. -/
  nodup : s.served.Nodup
  executed : s.executed = s.served.flatMap fun k => (s.caller k).asked.toList.map (k, ·)
  /-- Who has returned has had its turn, and has what the consumer answered. -/
  returned : ∀ k v, (s.caller k).pc = .returned v →
    k ∈ s.served ∧ (s.caller k).kept = .nothing ∧ ((s.caller k).asked = none → v = none) ∧
      ((s.caller k).asked ≠ none → v ≠ none ∧ v = (s.caller k).given)
  /-- And it does not return again. -/
  once : ∀ k v a, (s.caller k).pc = .returned v → guard s a → (next s a).caller k = s.caller k
  /-- Who sleeps is woken, is about to be, or has a call that the consumer keeps; and then the
      consumer thread is awake, or somebody is about to notify it. -/
  awake : ∀ k, (s.caller k).pc = .asleep → (s.caller k).woken = true ∨
    s.consumer.wakes = some k ∨ (s.caller k).kept ≠ .nothing ∧
      (s.consumer ≠ .waiting false ∨ ∃ j, (s.caller j).pc.Alerts) ∧ s.consumer ≠ .done
  /-- While it is being dropped nobody is in a call and no call is deferred, and the consumer
      thread is awake once it has been notified. -/
  closes : s.closing ≠ .running → (∀ k, (s.caller k).pc.Rests ∧ (s.caller k).kept = .nothing) ∧
    (s.closing = .joining → s.consumer ≠ .waiting false)

end OsDelegator

end Delegate

end Cmpth

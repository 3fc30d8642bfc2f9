import Mathlib.Data.Fintype.Basic
import Mathlib.Logic.Function.Basic
import Cmpth.Core.System
import Cmpth.Delegate.Calls

/-!
# `CombiningDelegator`

The delegator without a consumer thread: whoever holds the lock runs the
requests of the callers queued behind it. Every load, store, swap and compare and
exchange of shared memory, every look at the consumer and every wake is a step.

A caller is one call of `call` or `with_lock`, and its node is in the frame of
that call. What the holder does to other nodes is in `touches`, which looks at
the consumer in `uses`.

## Main definitions

* `Caller`: A node, with the locals of its caller.
* `State`, `Action`, `system`: The delegator as a guarded transition system.
* `touches`: The callers whose nodes or slots a step reads or writes.
* `uses`: The caller that uses the consumer in a step.
-/

namespace Cmpth

namespace Delegate

namespace Combining

/-- Where the holder is in the loop of `drain`. -/
inductive Stage (K : Type*) where
  /-- About to ask the consumer whether it is active. -/
  | polling
  /-- In the loop over `progress`. -/
  | progressing
  /-- About to load the link of `cur`. -/
  | loading
  /-- There is no link; about to ask whether there are calls to poll. -/
  | checking
  /-- About to exchange the tail. -/
  | releasing
  /-- The exchange failed; waiting for the link. -/
  | linking
  /-- The successor is known, and whether it wants the lock; about to let the
      caller of `cur` go. -/
  | leaving (next : K) (lock : Bool)
  deriving DecidableEq, Repr

/-- The locals of `drain`: `own` says whether the holder's own call is still
    deferred. -/
structure Frame (K : Type*) where
  cur : K
  wake : Option K
  own : Bool
  deriving DecidableEq, Repr

/-- Where a caller is. -/
inductive Pc (K Resp : Type*) where
  | idle
  /-- Behind `prev`; about to fill in its node and to suspend. -/
  | swapped (prev : K)
  /-- Suspended; about to link its node behind `prev`. -/
  | parked (prev : K)
  | asleep
  /-- `call`, as the holder: about to run its own request. -/
  | executing
  /-- `with_lock`, as the holder: about to run its closure. -/
  | inside
  | draining (f : Frame K) (stage : Stage K)
  /-- About to run the request of the successor. -/
  | running (own : Bool) (next : K)
  /-- About to hand the lock to the successor, asleep first if its own call is
      still deferred. -/
  | handing (own : Bool) (next : K)
  /-- Suspended; about to hand the lock to the successor. -/
  | resting (next : K)
  /-- The lock is released; about to let the last caller go. -/
  | released (wake : Option K)
  /-- About to take the response and to return. -/
  | returning
  | returned (v : Option Resp)
  deriving DecidableEq, Repr

/-- A caller: its node and slot, its locals, and what the consumer has of it.
    `asked` is the request of a `call`, `value` the response its caller got at
    once; `ran`, `given` and `woken` say that its turn has come, what the
    consumer answered, and that it has been woken. -/
structure Caller (K Req Resp : Type*) where
  next : Option (K × Bool)
  req : Option Req
  out : Option Resp
  sth : Bool
  asked : Option Req
  value : Option Resp
  kept : Kept
  ran : Bool
  given : Option Resp
  woken : Bool
  pc : Pc K Resp

/-- `order` has the callers as they swapped the tail, `served` those whose turn
    has come and `executed` the requests that were run. -/
structure State (K Req Resp : Type*) where
  tail : Option K
  caller : K → Caller K Req Resp
  order : List K
  served : List K
  executed : List (K × Req)

/-- What a caller, or whoever completes a deferred call, does next. -/
inductive Action (K Req Resp : Type*) where
  /-- `call`: the swap of the tail. -/
  | call (k : K) (r : Req)
  /-- `with_lock`: the swap of the tail. -/
  | withLock (k : K)
  /-- The next step of a caller, with what the consumer answers. -/
  | step (k : K) (a : Answers K Resp)
  /-- A deferred call is completed. -/
  | complete (k : K) (v : Resp)
  deriving DecidableEq, Repr

variable {K Req Resp : Type*}

/-- The caller has the lock. -/
def Pc.Holds : Pc K Resp → Prop
  | .executing | .inside | .draining _ _ | .running _ _ | .handing _ _ | .resting _ => True
  | .idle | .swapped _ | .parked _ | .asleep | .released _ | .returning | .returned _ => False

/-- The caller is done with its node. -/
def Pc.Gone : Pc K Resp → Prop
  | .returning | .returned _ => True
  | .idle | .swapped _ | .parked _ | .asleep | .executing | .inside | .draining _ _
    | .running _ _ | .handing _ _ | .resting _ | .released _ => False

/-- The caller has a next step of its own. -/
def Pc.Steps : Pc K Resp → Prop
  | .idle | .asleep | .returned _ => False
  | .swapped _ | .parked _ | .executing | .inside | .draining _ _ | .running _ _
    | .handing _ _ | .resting _ | .released _ | .returning => True

instance : DecidablePred (Pc.Steps : Pc K Resp → Prop)
  | .idle | .asleep | .returned _ => isFalse id
  | .swapped _ | .parked _ | .executing | .inside | .draining _ _ | .running _ _
    | .handing _ _ | .resting _ | .released _ | .returning => isTrue trivial

section

variable [DecidableEq K]

/-- One caller changes. -/
def State.set (s : State K Req Resp) (k : K) (c : Caller K Req Resp) : State K Req Resp :=
  { s with caller := Function.update s.caller k c }

/-- One caller goes on to another step. -/
def State.setPc (s : State K Req Resp) (k : K) (pc : Pc K Resp) : State K Req Resp :=
  s.set k { s.caller k with pc := pc }

/-- Wakes the caller, whose thread is moved out of its slot first. It goes on
    with its response, or with the lock. -/
def State.notify (s : State K Req Resp) (k : K) : State K Req Resp :=
  if (s.caller k).sth = true then
    s.set k
      { s.caller k with
        sth := false
        woken := true
        pc := if (s.caller k).asked = none then .inside else .returning }
  else s

/-- The caller that is to be let go, if there is one. -/
def State.notifyAll (s : State K Req Resp) : Option K → State K Req Resp
  | none => s
  | some k => s.notify k

/-- `enqueue`, up to the swap of the tail. -/
def State.enqueue (s : State K Req Resp) (k : K) (asked : Option Req) : State K Req Resp :=
  { s.set k
      { s.caller k with
        next := none
        asked := asked
        pc := match s.tail with
          | some prev => .swapped prev
          | none => if asked = none then .inside else .executing } with
    tail := some k
    order := s.order ++ [k] }

/-- The holder runs its own request. -/
def State.execute (s : State K Req Resp) (k : K) (answer : Option Resp) : State K Req Resp :=
  { s.set k
      { s.caller k with
        ran := true
        value := answer
        given := answer
        kept := if answer = none then .deferred else .nothing
        pc := .draining ⟨k, none, answer.isNone⟩ .polling } with
    served := s.served ++ [k]
    executed := s.executed ++ (s.caller k).asked.toList.map (k, ·) }

/-- `progress` hands back a call. -/
def State.handBack (s : State K Req Resp) (k : K) (f : Frame K) (r : K) : State K Req Resp :=
  let s' := s.set r { s.caller r with kept := .nothing }
  if f.own = true ∧ r = k then s'.setPc k (.draining { f with own := false } .progressing)
  else if f.cur ≠ k ∧ r = f.cur then
    s'.setPc k (.draining { f with wake := some r } .progressing)
  else s'.notify r

/-- The holder runs the request of the successor, from its node. -/
def State.run (s : State K Req Resp) (k n : K) (own : Bool) (answer : Option Resp) :
    State K Req Resp :=
  let c := s.caller n
  let s' := s.set n
    { c with
      ran := true
      out := if answer = none then c.out else answer
      given := answer
      kept := if answer = none then .deferred else .nothing }
  { s'.setPc k (.draining ⟨n, if answer = none then none else some n, own⟩ .polling) with
    served := s.served ++ [n]
    executed := s.executed ++ c.req.toList.map (n, ·) }

/-- The next step of the loop of `drain`. -/
def State.drain (s : State K Req Resp) (k : K) (f : Frame K) (a : Answers K Resp) :
    Stage K → State K Req Resp
  | .polling => s.setPc k (.draining f (if a.active = true then .progressing else .loading))
  | .progressing =>
      match a.progress with
      | none => s.setPc k (.draining f .loading)
      | some r => s.handBack k f r
  | .loading =>
      match (s.caller f.cur).next with
      | none => s.setPc k (.draining f .checking)
      | some (n, lock) => s.setPc k (.draining f (.leaving n lock))
  | .checking =>
      s.setPc k (.draining f (if f.own = true ∨ a.active = true then .polling else .releasing))
  | .releasing =>
      if s.tail = some f.cur then { s.setPc k (.released f.wake) with tail := none }
      else s.setPc k (.draining f .linking)
  | .linking =>
      match (s.caller f.cur).next with
      | none => s
      | some (n, lock) => s.setPc k (.draining f (.leaving n lock))
  | .leaving n lock =>
      (s.notifyAll f.wake).setPc k (if lock = true then .handing f.own n else .running f.own n)

/-- The next step of a caller. -/
def State.next (s : State K Req Resp) (k : K) (a : Answers K Resp) : State K Req Resp :=
  match (s.caller k).pc with
  | .idle | .asleep | .returned _ => s
  | .swapped prev =>
      s.set k { s.caller k with req := (s.caller k).asked, sth := true, pc := .parked prev }
  | .parked prev =>
      let s' := s.set prev
        { s.caller prev with next := some (k, (s.caller k).asked.isNone) }
      s'.setPc k .asleep
  | .executing => s.execute k a.execute
  | .inside =>
      { s.set k { s.caller k with ran := true, pc := .draining ⟨k, none, false⟩ .polling } with
        served := s.served ++ [k] }
  | .draining f stage => s.drain k f a stage
  | .running own n => s.run k n own a.execute
  | .handing own n =>
      if own = true then s.set k { s.caller k with sth := true, pc := .resting n }
      else (s.notify n).setPc k .returning
  | .resting n => (s.notify n).setPc k .asleep
  | .released wake => (s.notifyAll wake).setPc k .returning
  | .returning =>
      s.setPc k (.returned
        (if (s.caller k).asked = none then none
          else match (s.caller k).value with
            | some v => some v
            | none => (s.caller k).out))

/-- When an action is enabled. -/
def guard (s : State K Req Resp) : Action K Req Resp → Prop
  | .call k _ | .withLock k => (s.caller k).pc = .idle
  | .step k a => (s.caller k).pc.Steps ∧ a.Honest fun k => (s.caller k).kept
  | .complete k _ => (s.caller k).kept = .deferred

instance [Fintype K] [DecidableEq Resp] (s : State K Req Resp) : ∀ a, Decidable (guard s a)
  | .call k _ | .withLock k => inferInstanceAs (Decidable ((s.caller k).pc = .idle))
  | .step _ _ => inferInstanceAs (Decidable (_ ∧ _))
  | .complete k _ => inferInstanceAs (Decidable ((s.caller k).kept = .deferred))

/-- The state after an action. -/
def next (s : State K Req Resp) : Action K Req Resp → State K Req Resp
  | .call k r => s.enqueue k (some r)
  | .withLock k => s.enqueue k none
  | .step k a => s.next k a
  | .complete k v =>
      s.set k { s.caller k with out := some v, given := some v, kept := .completed }

/-- A delegator nobody has called. -/
def init (s : State K Req Resp) : Prop :=
  s.tail = none ∧ s.order = [] ∧ s.served = [] ∧ s.executed = [] ∧
  ∀ k, (s.caller k).sth = false ∧ (s.caller k).value = none ∧ (s.caller k).kept = .nothing ∧
    (s.caller k).ran = false ∧ (s.caller k).given = none ∧ (s.caller k).woken = false ∧
    (s.caller k).pc = .idle

/-- The delegator as a guarded transition system. -/
def system : System (State K Req Resp) (Action K Req Resp) where
  init := init
  guard := guard
  next := next

instance [Fintype K] [DecidableEq Resp] (s : State K Req Resp) (a : Action K Req Resp) :
    Decidable (system.guard s a) :=
  inferInstanceAs (Decidable (guard s a))

end

/-- The callers whose nodes or slots a step reads or writes, other than as its
    own. -/
def touches (s : State K Req Resp) : Action K Req Resp → List K
  | .call _ _ | .withLock _ => []
  | .complete k _ => [k]
  | .step k a =>
      match (s.caller k).pc with
      | .parked prev => [prev]
      | .draining f stage =>
          match stage with
          | .progressing => a.progress.toList
          | .loading | .linking => [f.cur]
          | .leaving _ _ => f.wake.toList
          | .polling | .checking | .releasing => []
      | .running _ n | .resting n => [n]
      | .handing own n => if own = true then [] else [n]
      | .released wake => wake.toList
      | .idle | .swapped _ | .asleep | .executing | .inside | .returning | .returned _ => []

/-- The caller that uses the consumer. -/
def uses (s : State K Req Resp) : Action K Req Resp → Option K
  | .call _ _ | .withLock _ | .complete _ _ => none
  | .step k _ =>
      match (s.caller k).pc with
      | .executing | .inside | .running _ _ => some k
      | .draining _ stage =>
          match stage with
          | .polling | .progressing | .checking => some k
          | .loading | .releasing | .linking | .leaving _ _ => none
      | .idle | .swapped _ | .parked _ | .asleep | .handing _ _ | .resting _ | .released _
        | .returning | .returned _ => none

end Combining

end Delegate

end Cmpth

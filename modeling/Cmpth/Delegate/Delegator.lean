import Mathlib.Data.Fintype.Basic
import Mathlib.Logic.Function.Basic
import Cmpth.Core.System
import Cmpth.Delegate.Calls
import Cmpth.Delegate.LockQueue

/-!
# `Delegator`

The delegator with a consumer thread, over any queue.

Whoever is first in the queue holds the lock, and the object behind it. A caller that finds the
lock free runs its request itself; the others are asleep, and the consumer thread runs their
requests, or hands them the lock if that is what they want. The consumer thread sleeps in its own
slot, `consumer_sth`, while a caller holds the lock, and whoever lets the lock go wakes a waiter,
wakes the consumer or releases the lock. A caller whose own call has been deferred goes to sleep
at the same moment.

Every queue operation is a step, and so is every look at the object, every token that is put into
a slot or taken out, and what is done in a callback between the two. What a queue operation
returns is given to the step: `op` says which operation it is. `system` takes the answers from
the abstract lock, `running` from a queue that implements it.

A caller is one call of `call` or `with_lock`. The consumer thread is there from `start` on,
though it is spawned by the first call; until it has run, it holds the lock. `enter` makes both
threads runnable, as `notify` does.

## Main definitions

* `Caller`, `Consumer`: The threads, with their slots and locals.
* `State`, `Action`: The delegator, without its queue.
* `op`: The queue operation a step performs.
* `system`: The delegator over the abstract lock.
* `running`: The delegator over a queue.
* `uses`: Who uses the object in a step.
-/

namespace Cmpth

namespace Delegate

namespace Delegator

/-- Where a caller is in `unlock`. -/
inductive Unlock where
  /-- About to ask the consumer whether it is active. -/
  | asking
  /-- `try_unlock`. -/
  | releasing
  /-- `try_follow_head`. -/
  | following
  /-- About to look into the slot of the node that is next. -/
  | handing (i : Nat)
  /-- About to wake its thread. -/
  | passing (i : Nat)
  /-- About to wake the consumer thread. -/
  | waking
  deriving DecidableEq, Repr

/-- Where a caller is in `unlock_and_wait`. -/
inductive Rest (K : Type*) where
  | asking
  /-- `wait_with_cond`: about to put its token into its slot. -/
  | suspending
  | releasing
  /-- About to take the token back. -/
  | cancelling
  | following
  | handing (i : Nat)
  /-- `swap`: about to take the token of the thread that is next. -/
  | passing (i : Nat)
  | waking
  /-- About to put its own token into its slot, before the other thread goes on: a caller, or the
      consumer thread. -/
  | parking (next : Option K)
  deriving DecidableEq, Repr

/-- Where a caller is. -/
inductive Pc (K Resp : Type*) where
  | idle
  /-- About to call `start_lock`. -/
  | starting
  /-- Behind somebody; about to fill in its node and to suspend. -/
  | waiting (i : Nat)
  /-- Suspended; about to link its node. -/
  | linking (i : Nat)
  | asleep
  /-- `call`, as the holder: about to run its own request. -/
  | executing
  /-- `with_lock`, as the holder: about to run its closure. -/
  | inside
  | unlocking (stage : Unlock)
  | resting (stage : Rest K)
  /-- About to take the response and to return. -/
  | returning
  | returned (v : Option Resp)
  deriving DecidableEq, Repr

/-- Where the consumer thread is: in `start`, or in `consume`. `head` is executed or not
    (`is_executed`), and `awake` is the caller that `progress` has handed back. -/
inductive Consumer (K Resp : Type*) where
  | starting
  | top
  | following
  /-- About to ask whether the consumer is active. -/
  | asking (isExecuted : Bool)
  | executing
  /-- About to store the response. -/
  | finishing (k : K) (v : Resp)
  /-- `consumer_sth.swap`: about to take the waiter's token. -/
  | swapping
  /-- About to put its own token into `consumer_sth`. -/
  | parking (k : K)
  | progressing
  | checking (awake : Option K)
  /-- About to wake a caller, and then to suspend or to begin again. -/
  | waking (k : K) (suspends : Bool)
  /-- `wait_with_cond`. -/
  | suspending
  | releasing
  | cancelling
  | parked
  deriving DecidableEq, Repr

/-- A caller: its slot, its locals, and what the consumer has of it. The slot is the one of its
    call, or for `with_lock` the one in its node; `sth` says that its token is there. `asked` is
    the request of a `call`, `value` the response its caller got at once; `ran` and `given` say
    that its turn has come and what the consumer answered. -/
structure Caller (K Req Resp : Type*) where
  asked : Option Req
  claim : Nat
  sth : Bool
  out : Option Resp
  value : Option Resp
  kept : Kept
  ran : Bool
  given : Option Resp
  pc : Pc K Resp

/-- `head` is the claim whose node `get_head` returns, `node` the caller that has filled in the
    node of a claim; `broken` says that a token was looked for in an empty slot. `order` has the
    callers as they claimed, `served` those whose turn has come and `executed` the requests that
    were run. -/
structure State (K Req Resp : Type*) where
  head : Nat
  isExecuted : Bool
  consumer : Consumer K Resp
  consumerSth : Bool
  node : Nat → Option K
  caller : K → Caller K Req Resp
  broken : Bool
  order : List K
  served : List K
  executed : List (K × Req)

/-- What a caller, the consumer thread, or whoever completes a deferred call does next. -/
inductive Action (K Req Resp : Type*) where
  | call (k : K) (r : Req)
  | withLock (k : K)
  /-- The next step of a caller, with what the consumer answers. -/
  | step (k : K) (a : Answers K Resp)
  /-- The next step of the consumer thread. -/
  | serve (a : Answers K Resp)
  /-- A deferred call is completed. -/
  | complete (k : K) (v : Resp)
  deriving DecidableEq, Repr

variable {K Req Resp : Type*}

/-- The caller has the lock. -/
def Pc.Holds : Pc K Resp → Prop
  | .executing | .inside | .unlocking _ | .resting _ => True
  | .idle | .starting | .waiting _ | .linking _ | .asleep | .returning | .returned _ => False

/-- The caller has a next step of its own. -/
def Pc.Steps : Pc K Resp → Prop
  | .idle | .asleep | .returned _ => False
  | .starting | .waiting _ | .linking _ | .executing | .inside | .unlocking _ | .resting _
    | .returning => True

instance : DecidablePred (Pc.Steps : Pc K Resp → Prop)
  | .idle | .asleep | .returned _ => isFalse id
  | .starting | .waiting _ | .linking _ | .executing | .inside | .unlocking _ | .resting _
    | .returning => isTrue trivial

/-- The queue operation of a stage of `unlock`. -/
def Unlock.op : Unlock → Option Op
  | .releasing => some .tryUnlock
  | .following => some .tryFollowHead
  | .asking | .handing _ | .passing _ | .waking => none

/-- And of `unlock_and_wait`. -/
def Rest.op : Rest K → Option Op
  | .releasing => some .tryUnlock
  | .following => some .tryFollowHead
  | .asking | .suspending | .cancelling | .handing _ | .passing _ | .waking | .parking _ => none

/-- The queue operation that the consumer thread performs. -/
def Consumer.op : Consumer K Resp → Option Op
  | .starting => some .startLock
  | .following => some .tryFollowHead
  | .releasing => some .tryUnlock
  | _ => none

section

variable [DecidableEq K]

/-- One caller changes. -/
def State.set (s : State K Req Resp) (k : K) (c : Caller K Req Resp) : State K Req Resp :=
  { s with caller := Function.update s.caller k c }

/-- One caller goes on to another step. -/
def State.setPc (s : State K Req Resp) (k : K) (pc : Pc K Resp) : State K Req Resp :=
  s.set k { s.caller k with pc := pc }

/-- A caller's token is taken out of its slot. -/
def State.take (s : State K Req Resp) (k : K) : State K Req Resp :=
  { s.set k { s.caller k with sth := false } with broken := s.broken || !(s.caller k).sth }

/-- A caller goes on, with its response or with the lock. -/
def State.wake (s : State K Req Resp) (k : K) : State K Req Resp :=
  s.setPc k (if (s.caller k).asked = none then .inside else .returning)

/-- `notify`, or `enter`. -/
def State.notify (s : State K Req Resp) (k : K) : State K Req Resp :=
  (s.take k).wake k

omit [DecidableEq K] in
/-- The token in `consumer_sth` is taken. -/
def State.takeConsumer (s : State K Req Resp) : State K Req Resp :=
  { s with consumerSth := false, broken := s.broken || !s.consumerSth }

omit [DecidableEq K] in
/-- The consumer thread begins with `consume`. -/
def State.top (s : State K Req Resp) : State K Req Resp :=
  { s with consumer := .top }

omit [DecidableEq K] in
/-- `sth.is_set()` of a node: its caller waits for the lock in it. -/
def State.isSet (s : State K Req Resp) (i : Nat) : Bool :=
  (s.node i).any fun k => (s.caller k).asked.isNone && (s.caller k).sth

omit [DecidableEq K] in
/-- The node is that of a call: `req` is not null. -/
def State.isCall (s : State K Req Resp) (i : Nat) : Bool :=
  (s.node i).any fun k => (s.caller k).asked.isSome

/-- What `start_lock` has returned. -/
def State.startLock (s : State K Req Resp) (k : K) : Result → State K Req Resp
  | .claimed i locked =>
      { s.set k
          { s.caller k with
            claim := i
            pc := if locked then (if (s.caller k).asked = none then .inside else .executing)
              else .waiting i } with
        head := if locked then i else s.head
        order := s.order ++ [k] }
  | _ => s

omit [DecidableEq K] in
/-- What a call returns, and `with_lock` does not. -/
def Caller.response (c : Caller K Req Resp) : Option Resp :=
  if c.asked = none then none
  else match c.value with
    | some v => some v
    | none => c.out

/-- The holder runs its own request. -/
def State.execute (s : State K Req Resp) (k : K) (answer : Option Resp) : State K Req Resp :=
  { s.set k
      { s.caller k with
        ran := true
        value := answer
        given := answer
        kept := if answer = none then .deferred else .nothing
        pc := if answer = none then .resting .asking else .unlocking .asking } with
    served := s.served ++ [k]
    executed := s.executed ++ (s.caller k).asked.toList.map (k, ·) }

/-- What `try_follow_head` has returned to the holder `k`. -/
def State.follow (s : State K Req Resp) (k : K) (handing : Nat → Pc K Resp) (waking : Pc K Resp) :
    Result → State K Req Resp
  | .follows (some i) => { s.setPc k (handing i) with isExecuted := false, head := i }
  | _ => s.setPc k waking

/-- The next step of `unlock`. -/
def State.unlock (s : State K Req Resp) (k : K) (a : Answers K Resp) (r : Result) :
    Unlock → State K Req Resp
  | .asking =>
      { s.setPc k (.unlocking (if a.active = true then .following else .releasing)) with
        isExecuted := true }
  | .releasing =>
      s.setPc k (if r = .unlocked true then .returning else .unlocking .following)
  | .following => s.follow k (fun i => .unlocking (.handing i)) (.unlocking .waking) r
  | .handing i => s.setPc k (.unlocking (if s.isSet i = true then .passing i else .waking))
  | .passing i =>
      match s.node i with
      | some j => (s.notify j).setPc k .returning
      | none => { s with broken := true }
  | .waking => s.takeConsumer.top.setPc k .returning

/-- The next step of `unlock_and_wait`. -/
def State.rest (s : State K Req Resp) (k : K) (a : Answers K Resp) (r : Result) :
    Rest K → State K Req Resp
  | .asking =>
      { s.setPc k (.resting (if a.active = true then .following else .suspending)) with
        isExecuted := true }
  | .suspending => s.set k { s.caller k with sth := true, pc := .resting .releasing }
  | .releasing =>
      s.setPc k (if r = .unlocked true then .asleep else .resting .cancelling)
  | .cancelling => (s.take k).setPc k (.resting .following)
  | .following => s.follow k (fun i => .resting (.handing i)) (.resting .waking) r
  | .handing i => s.setPc k (.resting (if s.isSet i = true then .passing i else .waking))
  | .passing i =>
      match s.node i with
      | some j => (s.take j).setPc k (.resting (.parking (some j)))
      | none => { s with broken := true }
  | .waking => s.takeConsumer.setPc k (.resting (.parking none))
  | .parking next =>
      let s' := s.set k { s.caller k with sth := true, pc := .asleep }
      match next with
      | some j => s'.wake j
      | none => s'.top

/-- The next step of a caller, with what its queue operation has returned. -/
def State.step (s : State K Req Resp) (k : K) (a : Answers K Resp) (r : Result) :
    State K Req Resp :=
  match (s.caller k).pc with
  | .idle | .asleep | .returned _ => s
  | .starting => s.startLock k r
  | .waiting i =>
      { s.set k { s.caller k with sth := true, pc := .linking i } with
        node := Function.update s.node i (some k) }
  | .linking _ => s.setPc k .asleep
  | .executing => s.execute k a.execute
  | .inside =>
      { s.set k { s.caller k with ran := true, pc := .unlocking .asking } with
        served := s.served ++ [k] }
  | .unlocking stage => s.unlock k a r stage
  | .resting stage => s.rest k a r stage
  | .returning => s.setPc k (.returned (s.caller k).response)

/-- The consumer thread runs the request of the head. -/
def State.run (s : State K Req Resp) (k : K) (answer : Option Resp) : State K Req Resp :=
  { s.set k
      { s.caller k with
        ran := true
        given := answer
        kept := if answer = none then .deferred else .nothing } with
    isExecuted := true
    consumer := match answer with
      | none => .top
      | some v => .finishing k v
    served := s.served ++ [k]
    executed := s.executed ++ (s.caller k).asked.toList.map (k, ·) }

/-- The next step of the consumer thread. -/
def State.serve (s : State K Req Resp) (a : Answers K Resp) (r : Result) : State K Req Resp :=
  match s.consumer with
  | .starting => s.top
  | .top => { s with consumer := if s.isExecuted = true then .following else .asking false }
  | .following =>
      match r with
      | .follows (some i) => { s with head := i, consumer := .asking false }
      | _ => { s with consumer := .asking true }
  | .asking true => { s with consumer := if a.active = true then .progressing else .checking none }
  | .asking false =>
      { s with consumer := if s.isCall s.head = true then .executing else .swapping }
  | .executing =>
      match s.node s.head with
      | some k => s.run k a.execute
      | none => { s with broken := true }
  | .finishing k v =>
      { s.set k { s.caller k with out := some v } with consumer := .waking k false }
  | .swapping =>
      match s.node s.head with
      | some k => { s.take k with consumer := .parking k }
      | none => { s with broken := true }
  | .parking k => { s.wake k with consumerSth := true, consumer := .parked }
  | .progressing =>
      match a.progress with
      | none => { s with consumer := .checking none }
      | some k =>
          { s.set k { s.caller k with kept := .nothing } with consumer := .checking (some k) }
  | .checking awake =>
      { s with
        isExecuted := true
        consumer := match awake with
          | some k => .waking k (!a.active)
          | none => if a.active = true then .top else .suspending }
  | .waking k suspends =>
      { s.notify k with consumer := if suspends = true then .suspending else .top }
  | .suspending => { s with consumerSth := true, consumer := .releasing }
  | .releasing => { s with consumer := if r = .unlocked true then .parked else .cancelling }
  | .cancelling => s.takeConsumer.top
  | .parked => s

/-- The queue operation that a step performs. -/
def op (s : State K Req Resp) : Action K Req Resp → Option Op
  | .call _ _ | .withLock _ | .complete _ _ => none
  | .step k _ =>
      match (s.caller k).pc with
      | .starting => some .startLock
      | .linking i => some (.setNext i)
      | .unlocking stage => stage.op
      | .resting stage => stage.op
      | .idle | .waiting _ | .asleep | .executing | .inside | .returning | .returned _ => none
  | .serve _ => s.consumer.op

/-- `start` has returned before anybody calls. -/
def guard (s : State K Req Resp) : Action K Req Resp → Prop
  | .call k _ | .withLock k => (s.caller k).pc = .idle ∧ s.consumer ≠ .starting
  | .step k a => (s.caller k).pc.Steps ∧ a.Honest fun k => (s.caller k).kept
  | .serve a => s.consumer ≠ .parked ∧ a.Honest fun k => (s.caller k).kept
  | .complete k _ => (s.caller k).kept = .deferred

instance [Fintype K] [DecidableEq Resp] (s : State K Req Resp) : ∀ a, Decidable (guard s a)
  | .call _ _ | .withLock _ | .step _ _ | .serve _ => inferInstanceAs (Decidable (_ ∧ _))
  | .complete k _ => inferInstanceAs (Decidable ((s.caller k).kept = .deferred))

/-- What a step does, with what its queue operation has returned. -/
def next (s : State K Req Resp) (r : Result) : Action K Req Resp → State K Req Resp
  | .call k req => s.set k { s.caller k with asked := some req, pc := .starting }
  | .withLock k => s.set k { s.caller k with asked := none, pc := .starting }
  | .step k a => s.step k a r
  | .serve a => s.serve a r
  | .complete k v =>
      s.set k { s.caller k with out := some v, given := some v, kept := .completed }

/-- A delegator that is not started. -/
def init (s : State K Req Resp) : Prop :=
  s.head = 0 ∧ s.isExecuted = true ∧ s.consumer = .starting ∧ s.consumerSth = false ∧
  s.broken = false ∧ s.order = [] ∧ s.served = [] ∧ s.executed = [] ∧
  ∀ k, (s.caller k).sth = false ∧ (s.caller k).value = none ∧ (s.caller k).kept = .nothing ∧
    (s.caller k).ran = false ∧ (s.caller k).given = none ∧ (s.caller k).pc = .idle

/-- The delegator over the abstract lock. -/
def system : System (State K Req Resp × LockQueue) (Action K Req Resp) where
  init x := init x.1 ∧ x.2 = .new
  guard x a := guard x.1 a
  next x a :=
    (next x.1 (((op x.1 a).map x.2.result).getD .linked) a, ((op x.1 a).map x.2.after).getD x.2)

/-- A step of the delegator, of its queue, or of both. -/
inductive Joint (α β : Type*) where
  | own (a : α)
  | queue (b : β)
  | both (a : α) (b : β)
  deriving DecidableEq, Repr

/-- The delegator over a queue: an operation takes place with the step of the queue that decides
    it, and returns what the queue does. -/
def running {σ β : Type*} (M : System σ β) (label : σ → β → Option (Op × Result)) :
    System (State K Req Resp × σ) (Joint (Action K Req Resp) β) where
  init x := init x.1 ∧ M.init x.2
  guard x
    | .own a => guard x.1 a ∧ op x.1 a = none
    | .queue b => M.guard x.2 b ∧ label x.2 b = none
    | .both a b =>
        guard x.1 a ∧ M.guard x.2 b ∧ (op x.1 a).isSome ∧
          (label x.2 b).map Prod.fst = op x.1 a
  next x
    | .own a => (next x.1 .linked a, x.2)
    | .queue b => (x.1, M.next x.2 b)
    | .both a b => (next x.1 (((label x.2 b).map Prod.snd).getD .linked) a, M.next x.2 b)

end

/-- Who uses the object: the consumer thread, or a caller. -/
def uses (s : State K Req Resp) : Action K Req Resp → Option (Option K)
  | .call _ _ | .withLock _ | .complete _ _ => none
  | .step k _ =>
      match (s.caller k).pc with
      | .executing | .inside | .unlocking .asking | .resting .asking => some (some k)
      | _ => none
  | .serve _ =>
      match s.consumer with
      | .asking _ | .executing | .progressing | .checking _ => some none
      | _ => none

end Delegator

end Delegate

end Cmpth

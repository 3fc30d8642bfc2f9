import Mathlib.Logic.Function.Basic
import Cmpth.Core.System
import Cmpth.Join.Word

/-!
# The Join Protocol

One task and its `JoinHandle`, and the word of the task's descriptor that
settles between them who takes the result and frees the descriptor.

The task may be a thread of its own (`Kind.stackful`) or a future driven by
`run_async_poll` (`Kind.async`); the two exit differently and share the word.
The handle may be joined, polled any number of times from an async task or
under a foreign waker, and dropped. Every access to the word is an action,
and so is every later step that an outcome of one leads to, so the two sides
interleave in every way. The loops around `compare_exchange_weak` may fail for
no reason as often as they like.

An action names the step with the local variables it uses; its guard says that
the side is at that step. What an address stands for matters nowhere, so the
protocol is over any `Encoding`.

## Main definitions

* `TaskPc`, `HandlePc`: The next step of either side.
* `Op`: What a compare and exchange of the handle is to store.
* `State`: The word, both sides and the bookkeeping.
* `Action`: One atomic operation.
* `system`: The protocol as a guarded transition system.
* `Settled`: Both sides are through.
-/

namespace Cmpth

namespace Join

/-- How the task runs. -/
inductive Kind where
  | stackful
  | async
  deriving DecidableEq, Repr

/-- The next step of the task. Joiners and wakers are those read back from the
    word. -/
inductive TaskPc (A : Type*) where
  /-- In a run queue, or suspended. -/
  | idle
  | running
  /-- `try_take_handoff_target`. -/
  | handoff
  /-- `is_abandoned`. -/
  | abandoned
  /-- Write the result; a joiner is handed the processor afterwards. -/
  | write (j : Option A)
  /-- `commit_finished`. -/
  | commit (j : A)
  /-- The swap in `finish_and_settle`. -/
  | swap
  | resume (j : A)
  | wake (b : A)
  /-- `try_claim_async_joiner`. -/
  | claim (j : A)
  /-- Drop the result. The flag tells whether `FINISHED` is published. -/
  | dropResult (published : Bool)
  | free (published : Bool)
  /-- `run_async_poll` drops its waker. The flag tells whether the future is
      done. -/
  | dropWaker (ready : Bool)
  /-- `park_after_poll`. -/
  | park
  | done (published : Bool)
  /-- The `unreachable!` of `finish_and_settle`. -/
  | doubleExit
  deriving DecidableEq, Repr

/-- What a compare and exchange of the handle is to store. -/
inductive Op (P : Type*) where
  /-- `try_register_joiner`. -/
  | join (j : P)
  /-- `try_register_async_joiner`. -/
  | await (j : P)
  /-- `try_register_waker`. -/
  | waker (b : P)
  /-- `try_abandon`. -/
  | abandon
  deriving DecidableEq, Repr

/-- The next step of the handle's owner. -/
inductive HandlePc (V P : Type*) where
  | held
  /-- `join`: `is_finished`. -/
  | isFinished (j : P)
  /-- The load before the loop. -/
  | load (op : Op P)
  /-- `try_register_waker`: the load before the waker is boxed. -/
  | loadWaker
  | boxing (cur : V)
  /-- The compare and exchange. -/
  | exchange (op : Op P) (cur : V)
  /-- Drop the box that was not registered. -/
  | unbox (b : P)
  /-- Suspended in `join`. -/
  | parked (j : P)
  /-- Read the result, or drop it if the handle is being dropped. -/
  | take
  | reclaim
  | gone
  deriving DecidableEq, Repr

/-- The two sides of a join. -/
inductive Side where
  | task
  | handle
  deriving DecidableEq, Repr

/-- The word and the two sides. `replaced` is the box a successful exchange has
    taken out of the word, still to be dropped. The rest is bookkeeping that no
    action depends on, except that `Box::new` returns an address not in use. -/
structure State (V P A : Type*) where
  kind : Kind
  word : V
  task : TaskPc A
  handle : HandlePc V P
  replaced : Option A
  /-- The result is in its slot. -/
  written : Bool
  /-- Who took or dropped the task's value. -/
  takes : List Side
  /-- Who freed the descriptor. -/
  frees : List Side
  registered : A → Nat
  resumed : A → Nat
  /-- Boxes made at an address, and boxes there that were woken or dropped. -/
  boxed : A → Nat
  unboxed : A → Nat
  /-- The task has published `FINISHED` to a live handle or freed the
      descriptor. -/
  gaveUp : Bool
  /-- The task has touched the descriptor since. -/
  late : Bool

/-- One access to the word, the result or the descriptor. -/
inductive Action (V P A : Type*) where
  /-- The task starts, or is polled: `mark_polling`. -/
  | begin
  /-- The future returns `Pending`. -/
  | pending
  /-- The function returns, the future returns `Ready` (`mark_idle`), or
      either panics. -/
  | complete
  | handoffLoad
  | abandonedLoad
  | write (j : Option A)
  | commitFinished (j : A)
  | swap
  | resume (j : A)
  | wake (b : A)
  /-- `try_claim_async_joiner`, and the joiner's resumption if it was parked. -/
  | claim (j : A)
  | dropResult (published : Bool)
  | free (published : Bool)
  | dropWaker (ready : Bool)
  | park
  /-- `join` is called. -/
  | join (j : P)
  | isFinished (j : P)
  /-- The handle is polled by an async task of the same system. -/
  | await (j : P)
  /-- The handle is polled under a foreign waker. -/
  | awaitForeign
  /-- The handle is dropped. -/
  | abandon
  | load (op : Op P)
  | loadWaker
  | box (cur : V) (b : P)
  | exchange (op : Op P) (cur : V) (spurious : Bool)
  | unbox (b : P)
  | dropReplaced (b : A)
  | take
  | reclaim
  deriving DecidableEq, Repr

variable {V P A : Type*}

/-- The state an operation registers. -/
def Op.state : Op P → JoinState P
  | .join j => .syncJoiner j
  | .await j => .asyncJoiner j
  | .waker b => .asyncWaker b
  | .abandon => .detached

/-- Where the handle's owner goes once the exchange has succeeded. -/
def Op.registered : Op P → HandlePc V P
  | .join j => .parked j
  | .await _ | .waker _ => .held
  | .abandon => .gone

/-- Where the handle's owner goes once it has read `FINISHED`. -/
def Op.refused : Op P → HandlePc V P
  | .join _ | .await _ | .abandon => .take
  | .waker b => .unbox b

/-- Where the task goes when all is settled. -/
def Kind.leave : Kind → TaskPc A
  | .stackful => .done true
  | .async => .dropWaker true

/-- Where the task goes when its body is done. -/
def Kind.exit : Kind → TaskPc A
  | .stackful => .handoff
  | .async => .write none

/-- `finish_and_settle`, by the state that the swap returned. -/
def settle (k : Kind) : JoinState A → TaskPc A
  | .running => k.leave
  | .syncJoiner j => .resume j
  | .asyncWaker b => .wake b
  | .asyncJoiner j => .claim j
  | .detached => .dropResult true
  | .finished => .doubleExit

/-- The box that an exchange takes out of the word. -/
def JoinState.box : JoinState A → Option A
  | .asyncWaker b => some b
  | .running | .finished | .detached | .syncJoiner _ | .asyncJoiner _ => none

/-- The steps of the task that read or write its descriptor. -/
def Action.touches : Action V P A → Bool
  | .begin | .complete | .handoffLoad | .abandonedLoad | .write _ | .commitFinished _ | .swap
  | .dropResult _ | .free _ | .dropWaker _ | .park => true
  | .pending | .resume _ | .wake _ | .claim _ | .join _ | .isFinished _ | .await _
  | .awaitForeign | .abandon | .load _ | .loadWaker | .box .. | .exchange .. | .unbox _
  | .dropReplaced _ | .take | .reclaim => false

variable [DecidableEq V] [DecidableEq A] (E : Encoding V P A)

/-- When an action can be taken: it is the next one of its side. -/
def guard (s : State V P A) : Action V P A → Prop
  | .begin => s.task = .idle
  | .pending => s.task = .running ∧ s.kind = .async
  | .complete => s.task = .running
  | .handoffLoad => s.task = .handoff
  | .abandonedLoad => s.task = .abandoned
  | .write j => s.task = .write j
  | .commitFinished j => s.task = .commit j
  | .swap => s.task = .swap
  | .resume j => s.task = .resume j
  | .wake b => s.task = .wake b
  | .claim j => s.task = .claim j
  | .dropResult p => s.task = .dropResult p
  | .free p => s.task = .free p
  | .dropWaker r => s.task = .dropWaker r
  | .park => s.task = .park
  | .join _ | .await _ | .awaitForeign | .abandon => s.handle = .held ∧ s.replaced = none
  | .isFinished j => s.handle = .isFinished j
  | .load op => s.handle = .load op
  | .loadWaker => s.handle = .loadWaker
  | .box cur b => s.handle = .boxing cur ∧ s.boxed (E.addr b) = s.unboxed (E.addr b)
  | .exchange op cur _ => s.handle = .exchange op cur
  | .unbox b => s.handle = .unbox b
  | .dropReplaced b => s.replaced = some b
  | .take => s.handle = .take
  | .reclaim => s.handle = .reclaim

/-- One more of `a`. -/
def count (f : A → Nat) (a : A) : A → Nat :=
  Function.update f a (f a + 1)

/-- A joiner that is registered is counted. -/
def Op.register (f : A → Nat) : Op P → A → Nat
  | .join j => count f (E.addr j)
  | .await _ | .waker _ | .abandon => f

/-- The effect of an action, but for `late`. -/
def effect (s : State V P A) : Action V P A → State V P A
  | .begin => { s with task := .running }
  | .pending => { s with task := .dropWaker false }
  | .complete => { s with task := s.kind.exit }
  | .handoffLoad =>
      match E.decode s.word with
      | .syncJoiner j => { s with task := .write (some j) }
      | _ => { s with task := .abandoned }
  | .abandonedLoad =>
      if s.word = E.encode .detached then { s with task := .dropResult false }
      else { s with task := .write none }
  | .write (some j) => { s with task := .commit j, written := true }
  | .write none => { s with task := .swap, written := true }
  | .commitFinished j => { s with word := E.encode .finished, task := .resume j, gaveUp := true }
  | .swap =>
      { s with
        word := E.encode .finished
        task := settle s.kind (E.decode s.word)
        gaveUp := E.decode s.word != .detached }
  | .resume j =>
      { s with
        task := s.kind.leave
        resumed := count s.resumed j
        handle := match s.handle with
          | .parked _ => .take
          | h => h }
  | .wake b => { s with task := s.kind.leave, unboxed := count s.unboxed b }
  | .claim _ => { s with task := s.kind.leave }
  | .dropResult p => { s with task := .free p, takes := .task :: s.takes }
  | .free true => { s with task := s.kind.leave, frees := .task :: s.frees, gaveUp := true }
  | .free false => { s with task := .done false, frees := .task :: s.frees, gaveUp := true }
  | .dropWaker true => { s with task := .done true }
  | .dropWaker false => { s with task := .park }
  | .park => { s with task := .idle }
  | .join j => { s with handle := .isFinished j }
  | .isFinished j =>
      if s.word = E.encode .finished then { s with handle := .take }
      else { s with handle := .load (.join j) }
  | .await j => { s with handle := .load (.await j) }
  | .awaitForeign => { s with handle := .loadWaker }
  | .abandon => { s with handle := .load .abandon }
  | .load op =>
      if s.word = E.encode .finished then { s with handle := op.refused }
      else { s with handle := .exchange op s.word }
  | .loadWaker =>
      if s.word = E.encode .finished then { s with handle := .take }
      else { s with handle := .boxing s.word }
  | .box cur b =>
      { s with handle := .exchange (.waker b) cur, boxed := count s.boxed (E.addr b) }
  | .exchange op cur spurious =>
      if s.word = cur ∧ spurious = false then
        { s with
          word := E.encode op.state
          handle := op.registered
          replaced := (E.decode cur).box
          registered := op.register E s.registered }
      else if s.word = E.encode .finished then { s with handle := op.refused }
      else { s with handle := .exchange op s.word }
  | .unbox b => { s with handle := .take, unboxed := count s.unboxed (E.addr b) }
  | .dropReplaced b => { s with replaced := none, unboxed := count s.unboxed b }
  | .take => { s with handle := .reclaim, takes := .handle :: s.takes }
  | .reclaim => { s with handle := .gone, frees := .handle :: s.frees }

/-- What an action does; it is late if it touches a descriptor that was given up. -/
def next (s : State V P A) (a : Action V P A) : State V P A :=
  { effect E s a with late := s.late || (a.touches && s.gaveUp) }

/-- A task about to run for the first time, with a handle or without one. -/
def init (s : State V P A) : Prop :=
  (s.word = E.encode .running ∧ s.handle = .held ∨
    s.word = E.encode .detached ∧ s.handle = .gone) ∧
  s.task = .idle ∧ s.replaced = none ∧ s.written = false ∧ s.takes = [] ∧ s.frees = [] ∧
  (∀ a, s.registered a = 0) ∧ (∀ a, s.resumed a = 0) ∧ (∀ a, s.boxed a = 0) ∧
  (∀ a, s.unboxed a = 0) ∧ s.gaveUp = false ∧ s.late = false

/-- The protocol as a guarded transition system. -/
def system : System (State V P A) (Action V P A) where
  init := init E
  guard := guard E
  next := next E

instance [DecidableEq P] (s : State V P A) : ∀ a : Action V P A, Decidable (guard E s a)
  | .pending | .join _ | .await _ | .awaitForeign | .abandon | .box .. =>
      inferInstanceAs (Decidable (_ ∧ _))
  | .begin | .complete | .handoffLoad | .abandonedLoad | .write _ | .commitFinished _ | .swap
  | .resume _ | .wake _ | .claim _ | .dropResult _ | .free _ | .dropWaker _ | .park
  | .isFinished _ | .load _ | .loadWaker | .exchange .. | .unbox _ | .dropReplaced _ | .take
  | .reclaim => inferInstanceAs (Decidable (_ = _))

instance decidableSystemGuard [DecidableEq P] (s : State V P A) (a : Action V P A) :
    Decidable ((system E).guard s a) :=
  inferInstanceAs (Decidable (guard E s a))

section

-- The proofs take these apart in parallel: their equations are made here, once.
attribute [local simp] effect

end

/-- Both sides are through with the descriptor. -/
def Settled (s : State V P A) : Prop :=
  (∃ published, s.task = .done published) ∧ s.handle = .gone ∧ s.replaced = none

end Join

end Cmpth

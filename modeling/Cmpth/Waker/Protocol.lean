import Mathlib.Logic.Function.Basic
import Cmpth.Core.System
import Cmpth.Waker.Word

/-!
# The Async Task Wake Protocol

One async task's descriptor: the iterations of `run_async_poll` that drive it,
the wakers that point at it and the run queues it is pushed to.

A pass of `run_async_poll` over the task is a frame, from the moment it has
the descriptor until it has parked, pushed or given it up. A waker is a slot
of its own with the program counter of the operation that is running on it.
Each load, exchange and store of the wake word is an action, and so is each
queue operation, so that frames and wakers interleave in every way.

The descriptor's memory is pooled. After the task finished and its descriptor
was reclaimed it may serve another task (`reuse`), while wakers and the rest
of a frame of the old one are still about. A branch of a stackless
`parallel_call` may also be popped back and polled by the call itself, with
the descriptor idle by its side.

Two things are wider here than in the code, and only add runs. A wake through
the poll's own waker (`borrow`) need not end with the poll. A claimed task may
be polled directly by any frame, where the code does that only for a joiner
claimed by the task it joins.

## Main definitions

* `FramePc`: How far a pass of `run_async_poll` has come.
* `WakerPc`: What is being done with a waker.
* `Life`: What the descriptor is used for.
* `State`: The descriptor, the frames, the wakers and the run queues.
* `Action`: One atomic operation.
* `system`: The protocol as a guarded transition system.
* `Place`, `Owns`: Who owns the descriptor.
-/

namespace Cmpth

namespace Waker

/-- What `poll_fn` returned. -/
inductive PollResult where
  | ready
  | pending
  deriving DecidableEq, Repr

/-- How far a pass of `run_async_poll` over the task has come. -/
inductive FramePc where
  | none
  /-- It has the descriptor; about to `mark_polling`. -/
  | entered
  /-- In `poll_fn`: the future is running. -/
  | polling
  /-- In `poll_fn`: the future is done; about to `mark_idle`. -/
  | completing
  /-- In `poll_fn`: about to write the result and publish `FINISHED`. -/
  | settling
  /-- `poll_fn` has returned; about to drop the waker. -/
  | dropping (r : PollResult)
  /-- `park_after_poll`: about to load. -/
  | parking
  /-- `park_after_poll`: about to exchange what was loaded. -/
  | parkCas (refs : Word)
  /-- A wake came during the poll; about to push. -/
  | requeueing
  deriving DecidableEq, Repr

/-- What is being done with a waker. -/
inductive WakerPc where
  | none
  | held
  /-- `note_waker_shared`, for the clone in this slot: about to load. -/
  | sharing
  /-- `note_waker_shared`: about to exchange. -/
  | shareCas (old : Word)
  /-- `try_wake_state`: about to load. -/
  | waking
  /-- `try_wake_state`: about to exchange. -/
  | wakeCas (refs : Word)
  /-- The wake has claimed the parked task. -/
  | claimed
  deriving DecidableEq, Repr

/-- What the descriptor is used for. -/
inductive Life where
  /-- A task is being built on it; its spawner has yet to push it. -/
  | new
  | running
  /-- A `parallel_call` has popped it back and polls the branch itself. -/
  | branch
  /-- `FINISHED` is published. -/
  | finished
  /-- In the pool. -/
  | free
  deriving DecidableEq, Repr

/-- The descriptor and everything that points at it. The last three fields are
    bookkeeping for the properties, and no action depends on them: pushes since
    the last `mark_polling`, whether a wake has completed since then, and
    whether that poll returned `Pending` and its frame has been left. -/
structure State (F K Q : Type*) where
  word : Word
  life : Life
  frame : F → FramePc
  waker : K → WakerPc
  queue : Q → Nat
  pushes : Nat
  woken : Bool
  suspended : Bool

/-- The accesses of passes and of wakers, and what becomes of the memory. -/
inductive Action (F K Q : Type*) where
  /-- `spawn_now`: the first push. -/
  | spawn (q : Q)
  /-- A worker takes the entry from a queue and runs it. -/
  | dispatch (f : F) (q : Q)
  | markPolling (f : F)
  /-- The future returns `Pending`. -/
  | pending (f : F)
  /-- The future returns `Ready` or panics. -/
  | ready (f : F)
  | markIdle (f : F)
  /-- The swap in `finish_and_settle`. -/
  | finish (f : F)
  /-- `drop_async_private`. -/
  | dropWaker (f : F)
  | parkLoad (f : F)
  | parkExchange (f : F)
  /-- `push` or `defer` after a wake during the poll. -/
  | requeue (f : F) (q : Q)
  /-- The future hands out a reference to the poll's own waker. -/
  | borrow (f : F) (k : K)
  /-- `clone_async_private`. -/
  | clonePrivate (f : F) (k : K)
  | shareLoad (k : K)
  | shareExchange (k : K)
  /-- `clone_async_shared`. -/
  | cloneShared (k k' : K)
  /-- `drop_shared`, or a borrow ends. -/
  | drop (k : K)
  /-- `try_wake_async` starts. -/
  | wake (k : K)
  | wakeLoad (k : K)
  | wakeExchange (k : K)
  /-- `push_continuation`. -/
  | push (k : K) (q : Q)
  /-- The claimed task is polled next by the same loop. -/
  | transfer (k : K) (f : F)
  /-- `parallel_call` pops its own branch. -/
  | popBack (q : Q)
  /-- `BranchPoll` is done, or dropped: `free_async_task`. -/
  | freeBranch
  /-- The result is taken or dropped and the descriptor returned. -/
  | reclaim
  /-- `reinit` for another task. -/
  | reuse
  deriving DecidableEq, Repr

variable {F K Q : Type*} [DecidableEq F] [DecidableEq K] [DecidableEq Q]

/-- Put a pass in another place. -/
def State.setFrame (s : State F K Q) (f : F) (pc : FramePc) : State F K Q :=
  { s with frame := Function.update s.frame f pc }

/-- Put a waker in another place. -/
def State.setWaker (s : State F K Q) (k : K) (pc : WakerPc) : State F K Q :=
  { s with waker := Function.update s.waker k pc }

/-- Push the task to a queue. -/
def State.enqueue (s : State F K Q) (q : Q) : State F K Q :=
  { s with queue := Function.update s.queue q (s.queue q + 1), pushes := s.pushes + 1 }

/-- When an action can be taken. -/
def guard (s : State F K Q) : Action F K Q → Prop
  | .spawn _ => s.life = .new
  | .dispatch f q => s.frame f = .none ∧ 0 < s.queue q
  | .markPolling f => s.frame f = .entered
  | .pending f | .ready f => s.frame f = .polling
  | .markIdle f => s.frame f = .completing
  | .finish f => s.frame f = .settling
  | .dropWaker f => s.frame f = .dropping .pending ∨ s.frame f = .dropping .ready
  | .parkLoad f => s.frame f = .parking
  | .parkExchange f => ∃ refs, s.frame f = .parkCas refs
  | .requeue f _ => s.frame f = .requeueing
  | .borrow f k | .clonePrivate f k => s.frame f = .polling ∧ s.waker k = .none
  | .shareLoad k => s.waker k = .sharing
  | .shareExchange k => ∃ old, s.waker k = .shareCas old
  | .cloneShared k k' => s.waker k = .held ∧ s.waker k' = .none
  | .drop k | .wake k => s.waker k = .held
  | .wakeLoad k => s.waker k = .waking
  | .wakeExchange k => ∃ refs, s.waker k = .wakeCas refs
  | .push k _ => s.waker k = .claimed
  | .transfer k f => s.waker k = .claimed ∧ s.frame f = .none
  | .popBack q => 0 < s.queue q
  | .freeBranch => s.life = .branch
  | .reclaim => s.life = .finished
  | .reuse => s.life = .free

instance (pc : FramePc) : Decidable (∃ refs, pc = .parkCas refs) :=
  match pc with
  | .parkCas refs => isTrue ⟨refs, rfl⟩
  | .none | .entered | .polling | .completing | .settling | .dropping _ | .parking
  | .requeueing => isFalse (fun ⟨_, h⟩ => nomatch h)

instance (pc : WakerPc) : Decidable (∃ old, pc = .shareCas old) :=
  match pc with
  | .shareCas old => isTrue ⟨old, rfl⟩
  | .none | .held | .sharing | .waking | .wakeCas _ | .claimed =>
      isFalse (fun ⟨_, h⟩ => nomatch h)

instance (pc : WakerPc) : Decidable (∃ refs, pc = .wakeCas refs) :=
  match pc with
  | .wakeCas refs => isTrue ⟨refs, rfl⟩
  | .none | .held | .sharing | .shareCas _ | .waking | .claimed =>
      isFalse (fun ⟨_, h⟩ => nomatch h)

instance (s : State F K Q) : ∀ a : Action F K Q, Decidable (guard s a)
  | .dispatch .. | .borrow .. | .clonePrivate .. | .cloneShared .. | .transfer .. =>
      inferInstanceAs (Decidable (_ ∧ _))
  | .dropWaker _ => inferInstanceAs (Decidable (_ ∨ _))
  | .parkExchange _ | .shareExchange _ | .wakeExchange _ =>
      inferInstanceAs (Decidable (∃ _, _))
  | .spawn _ | .markPolling _ | .pending _ | .ready _ | .markIdle _ | .finish _ | .parkLoad _
  | .requeue .. | .shareLoad _ | .drop _ | .wake _ | .wakeLoad _ | .push .. | .freeBranch
  | .reclaim | .reuse => inferInstanceAs (Decidable (_ = _))
  | .popBack _ => inferInstanceAs (Decidable (_ < _))

/-- A compare and exchange that fails goes back to its load. -/
def next (s : State F K Q) : Action F K Q → State F K Q
  | .spawn q => { s.enqueue q with life := .running }
  | .dispatch f q =>
      { s.setFrame f .entered with queue := Function.update s.queue q (s.queue q - 1) }
  | .markPolling f =>
      { s.setFrame f .polling with
        word := polling, pushes := 0, woken := false, suspended := false }
  | .pending f => s.setFrame f (.dropping .pending)
  | .ready f => s.setFrame f .completing
  | .markIdle f => { s.setFrame f .settling with word := idle }
  | .finish f => { s.setFrame f (.dropping .ready) with life := .finished }
  | .dropWaker f =>
      match s.frame f with
      | .dropping .pending => s.setFrame f .parking
      | _ => s.setFrame f .none
  | .parkLoad f => s.setFrame f (.parkCas s.word)
  | .parkExchange f =>
      match s.frame f with
      | .parkCas refs =>
          if s.word = refs then
            let (new, committed) := parkTry refs
            if committed then { s.setFrame f .none with word := new, suspended := true }
            else { s.setFrame f .requeueing with word := new }
          else s.setFrame f .parking
      | _ => s
  | .requeue f q => { (s.enqueue q).setFrame f .none with suspended := true }
  | .borrow _ k => s.setWaker k .held
  | .clonePrivate _ k => s.setWaker k .sharing
  | .shareLoad k => s.setWaker k (.shareCas s.word)
  | .shareExchange k =>
      match s.waker k with
      | .shareCas old =>
          if s.word = old then { s.setWaker k .held with word := share old }
          else s.setWaker k .sharing
      | _ => s
  | .cloneShared _ k' => s.setWaker k' .held
  | .drop k => s.setWaker k .none
  | .wake k => s.setWaker k .waking
  | .wakeLoad k =>
      match wakeTry s.word with
      | .exchange _ _ => s.setWaker k (.wakeCas s.word)
      | .done _ => { s.setWaker k .held with woken := true }
      | .unreachable => s
  | .wakeExchange k =>
      match s.waker k with
      | .wakeCas refs =>
          if s.word = refs then
            match wakeTry refs with
            | .exchange new .claimedParked => { s.setWaker k .claimed with word := new }
            | .exchange new _ => { s.setWaker k .held with word := new, woken := true }
            | _ => s
          else s.setWaker k .waking
      | _ => s
  | .push k q => { (s.enqueue q).setWaker k .held with woken := true }
  | .transfer k f => { (s.setWaker k .held).setFrame f .entered with woken := true }
  | .popBack q =>
      { s with
        queue := Function.update s.queue q (s.queue q - 1)
        life := .branch
        pushes := 0
        suspended := false }
  | .freeBranch => { s with life := .free }
  | .reclaim => { s with life := .free }
  | .reuse =>
      { s with life := .new, word := idle, pushes := 0, woken := false, suspended := false }

/-- A descriptor whose task is about to be pushed for the first time, and that
    nothing points at yet. -/
def init (s : State F K Q) : Prop :=
  s.life = .new ∧ s.word = idle ∧ (∀ f, s.frame f = .none) ∧ (∀ k, s.waker k = .none) ∧
    (∀ q, s.queue q = 0) ∧ s.pushes = 0 ∧ s.woken = false ∧ s.suspended = false

/-- The protocol as a guarded transition system. -/
def system : System (State F K Q) (Action F K Q) where
  init := init
  guard := guard
  next := next

instance decidableSystemGuard (s : State F K Q) (a : Action F K Q) :
    Decidable ((system (F := F) (K := K) (Q := Q)).guard s a) :=
  inferInstanceAs (Decidable (guard s a))

section

-- The proofs take these apart in parallel: their equations are made here, once.
attribute [local simp] guard next

end

/-- Whether the frame has the task: from the moment it got the descriptor
    until it parks, pushes or publishes `FINISHED`. -/
def FramePc.owns : FramePc → Bool
  | .entered | .polling | .completing | .settling | .dropping .pending | .parking | .parkCas _
  | .requeueing => true
  | .none | .dropping .ready => false

/-- Where the descriptor can be. -/
inductive Place (F K Q : Type*) where
  /-- With the spawner that builds the task. -/
  | spawner
  /-- Being polled, or requeued by the worker that polled it. -/
  | frame (f : F)
  /-- In a run queue. -/
  | queue (q : Q)
  | parked
  /-- Being pushed by the waker that claimed it. -/
  | waker (k : K)
  /-- With the `parallel_call` that popped it back. -/
  | branch
  | finished
  | free

/-- The descriptor is at the place. -/
def Owns (s : State F K Q) : Place F K Q → Prop
  | .spawner => s.life = .new
  | .frame f => (s.frame f).owns = true
  | .queue q => 0 < s.queue q
  | .parked => decode s.word = .parked
  | .waker k => s.waker k = .claimed
  | .branch => s.life = .branch
  | .finished => s.life = .finished
  | .free => s.life = .free

/-- The task is in a run queue, being pushed to one by a worker or a waker, or
    being polled. -/
def Scheduled (s : State F K Q) : Prop :=
  (∃ q, 0 < s.queue q) ∨ (∃ k, s.waker k = .claimed) ∨ (∃ f, (s.frame f).owns = true)

end Waker

end Cmpth

import Mathlib.Logic.Function.Basic
import Cmpth.Core.System
import Cmpth.Join.Word
import Cmpth.Waker.Word

/-!
# Async Joiners

`JoinHandle::poll` inside the poll of an async task stores the bare address of
that task's descriptor in the join word of the awaited one. The task that
completes reads it back and claims the joiner through its wake word.

Nothing ties the address to the descriptor's life. A handle is `Unpin` and
`Send`, so a task may poll it once and finish without it: another task has the
handle by then, or somebody else takes the result. And a completing task has
read the address before it uses it, so even a joiner that sees `FINISHED` in a
later poll of its own can be gone by then.

Descriptors come back into use, so a task is a descriptor and its generation.
Whose task registered is history here, which the code does not keep.

One action is one atomic operation, or a straight run of a worker between two
of them. The handle is held by whoever acts on it.

## Main definitions

* `Frame`: One pass of `run_async_poll` on a worker's native stack.
* `State`: The descriptors, their handles and the workers.
* `Action`: One operation.
* `system`: The tasks as a guarded transition system.
* `Names`: A join word or a completing task has the address in it.
* `Live`: Every such address is the registered task's own.
* `SettlesLive`: The step settles no word with another address.
* `Unnamed`: The step reclaims no descriptor that is still named.
-/

namespace Cmpth

namespace Join

namespace Joiner

open Waker (WakeState)

/-- A task: its descriptor, and which of its uses. -/
abbrev Task (D : Type*) := D × ℕ

/-- Who has the handle. -/
inductive Handle where
  | gone
  | held
  /-- A sync joiner is registered and will take the result. -/
  | joining
  deriving DecidableEq, Repr

/-- Where a pass of `run_async_poll` is. -/
inductive Stage (D : Type*) where
  | polling
  /-- `finish_and_settle` has read this joiner, registered by `r`, and is about
      to claim it. -/
  | claiming (j : D) (r : Task D)
  deriving DecidableEq, Repr

/-- One pass of `run_async_poll`: the descriptor it drives and the
    `polling_async` it restores. -/
structure Frame (D : Type*) where
  desc : D
  prev : Option D
  stage : Stage D
  deriving DecidableEq, Repr

/-- The descriptors' words and memory, their handles, and of each worker its
    passes, innermost first, and `polling_async`. -/
structure State (D W : Type*) where
  gen : D → ℕ
  live : D → Bool
  word : D → JoinState D
  /-- The task that stored the async joiner in this word. -/
  registrant : D → Task D
  handle : D → Handle
  wake : D → WakeState
  queued : D → Bool
  stack : W → List (Frame D)
  polling : W → Option D

/-- What workers do to tasks, and what the owners of handles do. -/
inductive Action (D W : Type*) where
  /-- A task in fresh or reused memory, queued. The root has no handle. -/
  | spawn (d : D) (root : Bool)
  /-- A worker pops the task and begins to poll it. -/
  | dispatch (w : W) (d : D)
  /-- `try_reclaim_and_run` inside a poll of the handle. -/
  | reclaimRun (w : W) (d : D)
  /-- `try_register_async_joiner` on `d`, of what the worker is polling. -/
  | register (w : W) (d : D)
  /-- `try_register_waker`, by a poll outside of any async task's. -/
  | boxWaker (w : W) (d : D)
  /-- `try_register_joiner`, by the suspended thread `j`. -/
  | join (d j : D)
  /-- `take_result`. -/
  | take (d : D)
  /-- `JoinHandle::drop`. -/
  | drop (d : D)
  /-- A wake of a waker of the task. -/
  | wake (d : D)
  /-- The innermost poll returns `Pending`; `park_after_poll`. -/
  | pend (w : W)
  /-- The innermost poll's future is done; the swap in `finish_and_settle`. -/
  | complete (w : W)
  /-- `try_claim_async_joiner`. -/
  | claim (w : W)
  deriving DecidableEq, Repr

variable {D W : Type*} [DecidableEq D] [DecidableEq W]

/-- The descriptor of `d` goes back to its pool or to the allocator. -/
def State.reclaim (s : State D W) (d : D) : State D W :=
  { s with live := Function.update s.live d false }

/-- The worker's innermost pass returns. -/
def State.leave (s : State D W) (w : W) (prev : Option D) (st : List (Frame D)) : State D W :=
  { s with
    stack := Function.update s.stack w st
    polling := Function.update s.polling w prev }

/-- `run_async_poll` begins to poll `d`. -/
def State.enter (s : State D W) (w : W) (d : D) (prev : Option D) (st : List (Frame D)) :
    State D W :=
  { s with
    wake := Function.update s.wake d .polling
    stack := Function.update s.stack w (⟨d, prev, .polling⟩ :: st)
    polling := Function.update s.polling w (some d) }

/-- A task leaves the run queue for this worker's stack. -/
def State.pops (s : State D W) (w : W) (d : D) : State D W :=
  { s.enter w d (s.polling w) (s.stack w) with queued := Function.update s.queued d false }

/-- `try_wake_state`, and the push after a claim. -/
def State.woken (s : State D W) (d : D) : State D W :=
  match s.wake d with
  | .polling => { s with wake := Function.update s.wake d .notified }
  | .parked =>
      { s with
        wake := Function.update s.wake d .polling
        queued := Function.update s.queued d true }
  | .notified | .idle => s

/-- The future of the innermost pass is done: `mark_idle`, then the swap, and
    what the word that was read asks for. -/
def complete (s : State D W) (w : W) : State D W :=
  match s.stack w with
  | f :: st =>
      let s' : State D W :=
        { s with
          wake := Function.update s.wake f.desc .idle
          word := Function.update s.word f.desc .finished }
      match s.word f.desc with
      | .asyncJoiner j =>
          { s' with
            stack := Function.update s.stack w
              ({ f with stage := .claiming j (s.registrant f.desc) } :: st) }
      | .detached => (s'.reclaim f.desc).leave w f.prev st
      | .running | .finished | .syncJoiner _ | .asyncWaker _ => s'.leave w f.prev st
  | [] => s

/-- `try_claim_parked` on the joiner: symmetric transfer, or it will notice. -/
def claim (s : State D W) (w : W) : State D W :=
  match s.stack w with
  | ⟨_, prev, .claiming j _⟩ :: st =>
      match s.wake j with
      | .parked => s.enter w j prev st
      | .polling =>
          { s with wake := Function.update s.wake j .notified }.leave w prev st
      | .notified | .idle => s.leave w prev st
  | _ => s

/-- What an action does. -/
def next (s : State D W) : Action D W → State D W
  | .spawn d root =>
      { s with
        gen := Function.update s.gen d (s.gen d + 1)
        live := Function.update s.live d true
        word := Function.update s.word d (if root then .detached else .running)
        handle := Function.update s.handle d (if root then .gone else .held)
        wake := Function.update s.wake d .idle
        queued := Function.update s.queued d true }
  | .dispatch w d | .reclaimRun w d => s.pops w d
  | .register w d =>
      match s.polling w, s.stack w with
      | some j, f :: _ =>
          { s with
            word := Function.update s.word d (.asyncJoiner j)
            registrant := Function.update s.registrant d (f.desc, s.gen f.desc) }
      | _, _ => s
  | .boxWaker _ d => { s with word := Function.update s.word d (.asyncWaker d) }
  | .join d j =>
      { s with
        word := Function.update s.word d (.syncJoiner j)
        handle := Function.update s.handle d .joining }
  | .take d => { s.reclaim d with handle := Function.update s.handle d .gone }
  | .drop d =>
      if s.word d = .finished then
        { s.reclaim d with handle := Function.update s.handle d .gone }
      else
        { s with
          word := Function.update s.word d .detached
          handle := Function.update s.handle d .gone }
  | .wake d => s.woken d
  | .pend w =>
      match s.stack w with
      | f :: st =>
          match s.wake f.desc with
          | .notified =>
              { s with
                wake := Function.update s.wake f.desc .polling
                queued := Function.update s.queued f.desc true }.leave w f.prev st
          | _ => { s with wake := Function.update s.wake f.desc .parked }.leave w f.prev st
      | [] => s
  | .complete w => complete s w
  | .claim w => claim s w

/-- The worker is in the innermost poll of some pass. -/
def polls (s : State D W) (w : W) : Bool :=
  match s.stack w with
  | ⟨_, _, .polling⟩ :: _ => true
  | _ => false

/-- The worker runs code that may poll a handle: a pass's future, or something
    that is no async task. -/
def runs (s : State D W) (w : W) : Bool :=
  (s.stack w).isEmpty || polls s w

/-- When an action can be taken. -/
def guard (s : State D W) : Action D W → Prop
  | .spawn d _ => s.live d = false
  | .dispatch w d => s.stack w = [] ∧ s.queued d = true
  | .reclaimRun w d => s.handle d = .held ∧ s.queued d = true ∧ runs s w = true
  | .register w d =>
      s.handle d = .held ∧ s.word d ≠ .finished ∧ polls s w = true ∧ (s.polling w).isSome = true
  | .boxWaker w d =>
      s.handle d = .held ∧ s.word d ≠ .finished ∧ runs s w = true ∧ s.polling w = none
  | .join d _ => s.handle d = .held ∧ s.word d ≠ .finished
  | .take d => s.handle d ≠ .gone ∧ s.word d = .finished
  | .drop d => s.handle d = .held
  | .wake _ => True
  | .pend w | .complete w => polls s w = true
  | .claim w =>
      match s.stack w with
      | ⟨_, _, .claiming _ _⟩ :: _ => True
      | _ => False

/-- Nothing is spawned yet. -/
def init (s : State D W) : Prop :=
  (∀ d, s.live d = false ∧ s.word d = .finished ∧ s.handle d = .gone ∧ s.wake d = .idle ∧
    s.queued d = false) ∧
  ∀ w, s.stack w = [] ∧ s.polling w = none

/-- The tasks as a guarded transition system. -/
def system : System (State D W) (Action D W) where
  init := init
  guard := guard
  next := next

instance decidableSystemGuard (s : State D W) :
    ∀ a : Action D W, Decidable ((system (D := D) (W := W)).guard s a)
  | .spawn _ _ => inferInstanceAs (Decidable (_ = _))
  | .dispatch w d =>
      match h : s.stack w with
      | [] => decidable_of_iff (s.queued d = true) (by simp [system, guard, h])
      | f :: st => isFalse (by simp [system, guard, h])
  | .reclaimRun _ _ | .register _ _ | .boxWaker _ _ | .join _ _ | .take _ =>
      inferInstanceAs (Decidable (_ ∧ _))
  | .drop _ => inferInstanceAs (Decidable (_ = _))
  | .wake _ => isTrue trivial
  | .pend _ | .complete _ => inferInstanceAs (Decidable (_ = _))
  | .claim w =>
      match h : s.stack w with
      | ⟨_, _, .claiming _ _⟩ :: _ => isTrue (by simp [system, guard, h])
      | ⟨_, _, .polling⟩ :: _ => isFalse (by simp [system, guard, h])
      | [] => isFalse (by simp [system, guard, h])

/-- A join word, or a completing task that is about to claim it, has the
    address `j`, which `r` registered. -/
def Names (s : State D W) (j : D) (r : Task D) : Prop :=
  (∃ d, s.word d = .asyncJoiner j ∧ s.registrant d = r) ∨
    ∃ w, ∃ f ∈ s.stack w, f.stage = .claiming j r

/-- The address is the descriptor of the task, which has not been reclaimed or
    reused. -/
def Current (s : State D W) (j : D) (r : Task D) : Prop :=
  r = (j, s.gen j) ∧ s.live j = true

/-- Every registered joiner is still the task that registered it. -/
def Live (s : State D W) : Prop :=
  ∀ j r, Names s j r → Current s j r

/-- Where the step settles a join word that has an async joiner, or claims the
    one it has read, that is still the task that registered it. -/
def SettlesLive (s : State D W) : Action D W → Prop
  | .complete w =>
      match s.stack w with
      | f :: _ => ∀ j, s.word f.desc = .asyncJoiner j → Current s j (s.registrant f.desc)
      | [] => True
  | .claim w =>
      match s.stack w with
      | ⟨_, _, .claiming j r⟩ :: _ => Current s j r
      | _ => True
  | _ => True

/-- The descriptor that the step reclaims, if it does. -/
def reclaims (s : State D W) : Action D W → Option D
  | .take d => some d
  | .drop d => if s.word d = .finished then some d else none
  | .complete w =>
      match s.stack w with
      | f :: _ => if s.word f.desc = .detached then some f.desc else none
      | [] => none
  | _ => none

/-- The step reclaims no descriptor that is still named as a joiner. -/
def Unnamed (s : State D W) (a : Action D W) : Prop :=
  ∀ d, reclaims s a = some d → ∀ r, ¬ Names s d r

end Joiner

end Join

end Cmpth

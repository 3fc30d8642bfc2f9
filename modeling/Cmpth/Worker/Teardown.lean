import Cmpth.Core.Places
import Cmpth.Worker.Marker

/-!
# The Scheduler Loop of an Initializer

`init` forks the scheduler loop of worker 0 onto a fresh stack, and the calling
OS thread's own stack becomes a ULT like any other, the main ULT: it is pushed,
it is stolen, it suspends, and by the time the guard is dropped it may be
running on any worker. The guard's `Drop` sets `finished`, wakes everybody and
suspends one last time, and the callback of that switch stores its token into
`dest_cont`. Each worker's loop ends when it finds `finished` set. Worker 0's
then joins the other workers' OS threads, takes the token out of `dest_cont`
and leaves its stack for good.

A worker is its OS thread here. What runs on the thread is a context, a loop or
a ULT, and the thread's locals hold the tokens of the contexts it is about to
switch to or to put somewhere. Where tokens are is all that decides who runs
where: nothing in the model says that a loop stays on its own thread, that the
main ULT lands on worker 0's or that `dest_cont` is written once.

A switch and its callback are one step. Tokens in run queues, wait slots and
join words are all in one pool, which any worker may take any token from at any
time. A `cond_suspend` may be cancelled, a wait on a loop may end at any time,
and tasks are created by anybody.

## Main definitions

* `Setup`: The workers, and the descriptor of the calling thread.
* `Pc`: What an OS thread is doing.
* `Phase`: How far the main ULT has come.
* `State`, `Action`, `system`: The OS threads as a guarded transition system.
* `Place`, `State.tokens`: Where tokens are.
* `Seats`: Each context has a place or none.

## Theorems

* `layout_pc`, `layout_root`, `layout_root_some`, `layout_root_none`, `layout_pool`,
  `layout_dest_some`, `layout_dest_none`: A store to one cell changes the tokens of one place.
* `layout_same`: The OS thread goes on with the tokens it has.
* `holds_arrive`, `live_land`: A thread that comes to a context.
* `Seats.shift`, `Seats.die`, `Seats.abandon`, `Seats.born`, `Seats.begin`: How tokens move, end and
  begin.
* `Seats.sole`: A context is in one place only.
-/

namespace Cmpth

namespace Worker

namespace Teardown

open Marker

/-- What `init` starts: worker 0, the workers whose OS threads it spawns, in the order of their
    handles, and the pseudo-descriptor of the thread it is called on. -/
structure Setup (W T : Type*) where
  first : W
  others : List W
  main : T
  mem_others : ∀ w, w ∈ others ↔ w ≠ first

/-- Where the code of `idle_loop` is: at its check of `finished`, about to ask for a task, or in
    `no_work_found` or the poll of an async task. -/
inductive Turn where
  | check
  | next
  | within
  deriving DecidableEq, Repr

/-- What the code on an OS thread is doing. -/
inductive Pc (W T : Type*) where
  /-- In `init`, before the fork, on the native stack. -/
  | caller (t : T)
  /-- In the forked closure, with `prev`. -/
  | forked (v : W) (t : T)
  | loop (v : W) (turn : Turn)
  | run (t : T)
  /-- `next_or_root` has returned. -/
  | picked (t : T) (n : Who W T)
  /-- In the closure, behind the loop: the OS threads that are still to be joined. -/
  | joining (v : W) (hs : List W)
  /-- `dest_cont` is taken. -/
  | leaving (v : W) (d : Who W T)
  /-- In `Drop`, behind `suspend_to_sched`. -/
  | back (t : T)
  /-- `worker_loop` has returned. -/
  | returned
  /-- `expect` has found nothing in `dest_cont`. -/
  | failed
  deriving DecidableEq, Repr

/-- How far the main ULT has come: the program, then `Drop` with `finished` set, with everybody
    woken, suspended, and resumed. The join of the service task belongs to the program. -/
inductive Phase where
  | body
  | finished
  | woken
  | parked
  | resumed
  deriving DecidableEq, Repr

/-- The main ULT's context is the one saved in `Drop`. -/
def Phase.inDrop : Phase → Bool
  | .parked | .resumed => true
  | .body | .finished | .woken => false

/-- `finished`; the root continuation of each worker; the tokens in queues, slots and join words;
    `dest_cont`; the ULTs there are; and as history how often `dest_cont` was taken and how often
    the main ULT was resumed in `Drop`. -/
structure State (W T : Type*) where
  finished : Bool
  pc : W → Pc W T
  rootCont : W → Option (Who W T)
  pool : List (Who W T)
  destCont : Option (Who W T)
  live : T → Bool
  phase : Phase
  taken : Nat
  resumed : Nat

/-- The steps of the OS threads, from `init` to the end of `Drop`. -/
inductive Action (W T : Type*) where
  /-- `suspend_to_new`, in `init`. -/
  | fork (w : W) (t : T)
  /-- The closure pushes `prev`. -/
  | publish (w v : W) (t : T)
  /-- The check of `finished`. -/
  | load (w v : W)
  /-- `run_on`. -/
  | runOn (w v : W) (d : Who W T)
  /-- `no_work_found`, or the poll of an async task, begins and ends. -/
  | enter (w v : W)
  | leave (w v : W)
  /-- `next_or_root`, with a task or with the root; a direct switch. -/
  | pick (w : W) (t : T) (d : Who W T)
  | pickRoot (w : W) (t : T) (d : Who W T)
  /-- `suspend_to_cont`, with a callback that puts the token away. -/
  | suspend (w : W) (t : T) (n : Who W T)
  /-- The one in `Drop`. -/
  | park (w : W) (n : Who W T)
  /-- `cond_suspend_to_sched`, cancelled. -/
  | cancel (w : W) (t : T) (n : Who W T)
  | exit (w : W) (t : T) (n : Who W T)
  /-- `spawn`, child first. -/
  | spawn (w : W) (t u : T)
  /-- A task is created and pushed, by anybody. -/
  | create (u : T)
  /-- `finished.store` and `idle.shutdown`, in `Drop`. -/
  | finish (w : W)
  | shutdown (w : W)
  /-- The closure joins an OS thread. -/
  | join (w v k : W) (hs : List W)
  /-- `dest_cont.take()`. -/
  | take (w v : W)
  /-- `exit_to_cont`. -/
  | exitToCont (w v : W) (d : Who W T)
  deriving DecidableEq, Repr

section

variable {W T : Type*} [DecidableEq W] [DecidableEq T]

/-- Where a context goes on that is not the main ULT's in `Drop`. -/
def arrive : Who W T → Pc W T
  | .loop v => .loop v .check
  | .ult t => .run t

/-- The OS thread goes on with another context. -/
def State.land (c : Setup W T) (s : State W T) (w : W) (d : Who W T) : State W T :=
  if d = .ult c.main ∧ s.phase.inDrop then
    { s with
      pc := Function.update s.pc w (.back c.main)
      phase := .resumed
      resumed := s.resumed + 1 }
  else { s with pc := Function.update s.pc w (arrive d) }

/-- `idle_loop` has returned. -/
def behindLoop (c : Setup W T) (v : W) : Pc W T :=
  if v = c.first then .joining v c.others else .returned

/-- `Option::take` and `expect`. -/
def expectDest (v : W) : Option (Who W T) → Pc W T
  | some d => .leaving v d
  | none => .failed

/-- The main ULT is not in `Drop`. -/
def State.free (c : Setup W T) (s : State W T) (t : T) : Prop :=
  t = c.main → s.phase = .body

instance (c : Setup W T) (s : State W T) (t : T) : Decidable (s.free c t) :=
  inferInstanceAs (Decidable (_ → _))

/-- When an action can be taken. -/
def guard (c : Setup W T) (s : State W T) : Action W T → Prop
  | .fork w t => s.pc w = .caller t
  | .publish w v t => s.pc w = .forked v t
  | .load w v => s.pc w = .loop v .check
  | .runOn w v d => s.pc w = .loop v .next ∧ d ∈ s.pool
  | .enter w v => s.pc w = .loop v .next
  | .leave w v => s.pc w = .loop v .within
  | .pick w t d => s.pc w = .run t ∧ d ∈ s.pool ∧ (s.free c t ∨ s.phase = .woken)
  | .pickRoot w t d =>
      s.pc w = .run t ∧ s.rootCont w = some d ∧ (s.free c t ∨ s.phase = .woken)
  | .suspend w t n | .cancel w t n => s.pc w = .picked t n ∧ s.free c t
  | .park w n => s.pc w = .picked c.main n ∧ s.phase = .woken
  | .exit w t n => s.pc w = .picked t n ∧ t ≠ c.main
  | .spawn w t u => s.pc w = .run t ∧ s.live u = false ∧ s.free c t
  | .create u => s.live u = false
  | .finish w => s.pc w = .run c.main ∧ s.phase = .body
  | .shutdown w => s.pc w = .run c.main ∧ s.phase = .finished
  | .join w v k hs => s.pc w = .joining v (k :: hs) ∧ s.pc k = .returned
  | .take w v => s.pc w = .joining v []
  | .exitToCont w v d => s.pc w = .leaving v d

instance (c : Setup W T) (s : State W T) (a : Action W T) : Decidable (guard c s a) := by
  cases a <;> unfold guard <;> infer_instance

/-- What an action does. -/
def next (c : Setup W T) (s : State W T) : Action W T → State W T
  | .fork w t => { s with pc := Function.update s.pc w (.forked w t) }
  | .publish w v t =>
      { s with pool := .ult t :: s.pool, pc := Function.update s.pc w (.loop v .check) }
  | .load w v =>
      { s with
        pc := Function.update s.pc w (if s.finished then behindLoop c v else .loop v .next) }
  | .runOn w v d =>
      -- The callback is `set_root_cont`.
      State.land c
        { s with
          pool := s.pool.erase d
          rootCont := Function.update s.rootCont w (some (.loop v)) } w d
  | .enter w v => { s with pc := Function.update s.pc w (.loop v .within) }
  | .leave w v => { s with pc := Function.update s.pc w (.loop v .check) }
  | .pick w t d =>
      { s with pool := s.pool.erase d, pc := Function.update s.pc w (.picked t d) }
  | .pickRoot w t d =>
      { s with
        rootCont := Function.update s.rootCont w none
        pc := Function.update s.pc w (.picked t d) }
  | .suspend w t n => State.land c { s with pool := .ult t :: s.pool } w n
  | .park w n => State.land c { s with destCont := some (.ult c.main), phase := .parked } w n
  | .cancel w t n =>
      -- The popped token goes back to where it came from.
      if n.isRoot then
        { s with
          rootCont := Function.update s.rootCont w (some n)
          pc := Function.update s.pc w (.run t) }
      else { s with pool := n :: s.pool, pc := Function.update s.pc w (.run t) }
  | .exit w t n => State.land c { s with live := Function.update s.live t false } w n
  | .spawn w t u =>
      { s with
        pool := .ult t :: s.pool
        live := Function.update s.live u true
        pc := Function.update s.pc w (.run u) }
  | .create u =>
      { s with pool := .ult u :: s.pool, live := Function.update s.live u true }
  | .finish _ => { s with finished := true, phase := .finished }
  | .shutdown _ => { s with phase := .woken }
  | .join w v _ hs => { s with pc := Function.update s.pc w (.joining v hs) }
  | .take w v =>
      { s with
        destCont := none
        taken := s.taken + 1
        pc := Function.update s.pc w (expectDest v s.destCont) }
  | .exitToCont w _ d => State.land c s w d

/-- Worker 0's OS thread is in `init`, the others have entered their loops. -/
def initial (c : Setup W T) : State W T where
  finished := false
  pc w := if w = c.first then .caller c.main else .loop w .check
  rootCont _ := none
  pool := []
  destCont := none
  live t := decide (t = c.main)
  phase := .body
  taken := 0
  resumed := 0

/-- The OS threads as a guarded transition system. -/
def system (c : Setup W T) : System (State W T) (Action W T) where
  init s := s = initial c
  guard := guard c
  next := next c

instance (c : Setup W T) (s : State W T) (a : Action W T) : Decidable ((system c).guard s a) :=
  inferInstanceAs (Decidable (guard c s a))

/-- Where a token is: in an OS thread's hands, in a worker's `root_cont`, in a queue or a slot, or
    in `dest_cont`. -/
inductive Place (W : Type*) where
  | thread (w : W)
  | root (w : W)
  | pool
  | dest
  deriving DecidableEq, Repr

/-- The tokens in an OS thread's hands. -/
def Pc.holds {W T : Type*} : Pc W T → List (Who W T)
  | .caller t | .run t | .back t => [.ult t]
  | .forked v t => [.loop v, .ult t]
  | .loop v _ | .joining v _ => [.loop v]
  | .picked t n => [.ult t, n]
  | .leaving v d => [.loop v, d]
  | .returned | .failed => []

/-- The tokens by place, from the cells that hold them. -/
def layout {W T : Type*} (pc : W → Pc W T) (root : W → Option (Who W T)) (pool : List (Who W T))
    (dest : Option (Who W T)) : Place W → List (Who W T)
  | .thread w => (pc w).holds
  | .root w => (root w).toList
  | .pool => pool
  | .dest => dest.toList

/-- The tokens by their places. -/
def State.tokens {W T : Type*} (s : State W T) : Place W → List (Who W T) :=
  layout s.pc s.rootCont s.pool s.destCont

section

variable {pc : W → Pc W T} {root : W → Option (Who W T)} {pool : List (Who W T)}
  {dest : Option (Who W T)}

omit [DecidableEq T] in
theorem layout_pc (w : W) (p : Pc W T) :
    layout (Function.update pc w p) root pool dest =
      Function.update (layout pc root pool dest) (.thread w) p.holds := by
  funext x
  cases x with
  | thread k => by_cases hk : k = w <;> simp [layout, hk]
  | _ => simp [layout]

omit [DecidableEq T] in
theorem layout_root (w : W) (o : Option (Who W T)) :
    layout pc (Function.update root w o) pool dest =
      Function.update (layout pc root pool dest) (.root w) o.toList := by
  funext x
  cases x with
  | root k => by_cases hk : k = w <;> simp [layout, hk]
  | _ => simp [layout]

omit [DecidableEq T] in
theorem layout_root_some (w : W) (d : Who W T) :
    layout pc (Function.update root w (some d)) pool dest =
      Function.update (layout pc root pool dest) (.root w) [d] :=
  layout_root w (some d)

omit [DecidableEq T] in
theorem layout_root_none (w : W) :
    layout pc (Function.update root w none) pool dest =
      Function.update (layout pc root pool dest) (.root w) [] :=
  layout_root w none

omit [DecidableEq T] in
theorem layout_pool (l : List (Who W T)) :
    layout pc root l dest = Function.update (layout pc root pool dest) .pool l := by
  funext x
  cases x <;> simp [layout]

omit [DecidableEq T] in
theorem layout_dest_some (d : Who W T) :
    layout pc root pool (some d) = Function.update (layout pc root pool dest) .dest [d] := by
  funext x
  cases x <;> simp [layout]

omit [DecidableEq T] in
theorem layout_dest_none :
    layout pc root pool none = Function.update (layout pc root pool dest) .dest [] := by
  funext x
  cases x <;> simp [layout]

omit [DecidableEq T] in
/-- The OS thread goes on with the tokens it has. -/
theorem layout_same {w : W} {p : Pc W T} (h : p.holds = (pc w).holds) :
    layout (Function.update pc w p) root pool dest = layout pc root pool dest := by
  rw [layout_pc, h]
  exact Function.update_eq_self (Place.thread w) _

end

omit [DecidableEq W] [DecidableEq T] in
@[simp] theorem holds_arrive (d : Who W T) : (arrive d).holds = [d] := by
  cases d <;> rfl

@[simp] theorem live_land (c : Setup W T) (s : State W T) (w : W) (d : Who W T) :
    (s.land c w d).live = s.live := by
  unfold State.land
  split <;> rfl

/-- Each context has a place or none, and a ULT that does not exist has none. -/
structure Seats (f : Place W → List (Who W T)) (live : T → Bool)
    (spot : Who W T → Option (Place W)) : Prop where
  placed : Placed f spot
  unborn : ∀ t, live t = false → spot (.ult t) = none

namespace Seats

variable {f : Place W → List (Who W T)} {live : T → Bool} {spot : Who W T → Option (Place W)}
  {x y : Place W} {n : Who W T} {lx ly : List (Who W T)}

theorem shift (h : Seats f live spot) (hxy : y ≠ x) (hx : (n :: lx).Perm (f x))
    (hy : ly.Perm (n :: f y)) :
    Seats (Function.update (Function.update f x lx) y ly) live
      (Function.update spot n (some y)) where
  placed := h.placed.shift hxy hx hy
  unborn t ht := by
    have hnone := h.unborn t ht
    have hn : spot n = some x := h.placed.mem.mp (hx.subset List.mem_cons_self)
    rw [Function.update_of_ne (by rintro rfl; rw [hnone] at hn; cases hn)]
    exact hnone

/-- A ULT is no more. -/
theorem die (h : Seats f live spot) {t : T} (hx : (.ult t :: lx).Perm (f x)) :
    Seats (Function.update f x lx) (Function.update live t false)
      (Function.update spot (.ult t) none) where
  placed := h.placed.gone hx
  unborn u hu := by
    by_cases hut : u = t
    · rw [hut, Function.update_self]
    · rw [Function.update_of_ne hut] at hu
      rw [Function.update_of_ne (by simpa using hut)]
      exact h.unborn u hu

/-- A loop is left for good. -/
theorem abandon (h : Seats f live spot) {v : W} (hx : (.loop v :: lx).Perm (f x)) :
    Seats (Function.update f x lx) live (Function.update spot (.loop v) none) where
  placed := h.placed.gone hx
  unborn u hu := by
    rw [Function.update_of_ne (by simp)]
    exact h.unborn u hu

theorem born (h : Seats f live spot) {u : T} (hu : live u = false)
    (hx : lx.Perm (.ult u :: f x)) :
    Seats (Function.update f x lx) (Function.update live u true)
      (Function.update spot (.ult u) (some x)) where
  placed := h.placed.fresh (h.unborn u hu) hx
  unborn t ht := by
    by_cases htu : t = u
    · rw [htu, Function.update_self] at ht
      cases ht
    · rw [Function.update_of_ne htu] at ht
      rw [Function.update_of_ne (by simpa using htu)]
      exact h.unborn t ht

theorem begin (h : Seats f live spot) {v : W} (hv : spot (.loop v) = none)
    (hx : lx.Perm (.loop v :: f x)) :
    Seats (Function.update f x lx) live (Function.update spot (.loop v) (some x)) where
  placed := h.placed.fresh hv hx
  unborn t ht := by
    rw [Function.update_of_ne (by simp)]
    exact h.unborn t ht

omit [DecidableEq W] [DecidableEq T] in
/-- A context is in one place only. -/
theorem sole (h : Seats f live spot) (hx : n ∈ f x) (hy : n ∈ f y) : x = y :=
  Option.some.inj ((h.placed.mem.mp hx).symm.trans (h.placed.mem.mp hy))

end Seats

end

end Teardown

end Worker

end Cmpth

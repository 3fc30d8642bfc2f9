import Cmpth.Scoped.Frames

/-!
# Sequential Evaluation

What a program of nested `parallel_call`s means: `a`, then `b`, then the rest,
on one thread. The program may panic and catch its panics. Only where a branch
of a `parallel_call` ends in a panic does it have no meaning here.

A run is compared with it through its history, which says of each call in
progress what its branches are and what its worker's queue was when it began.
Nothing in the engine depends on the history.

## Main definitions

* `Prog.eval`: The outcome of a program.
* `Log`: The history of the calls.
* `engine`: The engine, started with a given program.
* `logged`: The engine with its history.
-/

namespace Cmpth

namespace Scoped

variable {W A V : Type*}

/-- Sequential evaluation: the value, or `some none` for a program that panics.
    `none` when a branch of one of its calls does. -/
def Prog.eval : Prog V → Option (Option V)
  | .ret v => some (some v)
  | .panic => some none
  | .parallelCall a b k =>
      match a.eval, b.eval with
      | some (some ra), some (some rb) => (k ra rb).eval
      | _, _ => none
  | .catchUnwind p k =>
      match p.eval with
      | some r => (k r).eval
      | none => none

/-- Of the call whose task is at an address: its branches, how often the second
    was started, the queue of its worker when it began, and the tasks that
    thieves have taken from there since. -/
structure Log (A V : Type*) where
  fst : A → Prog V
  snd : A → Prog V
  starts : A → ℕ
  entry : A → List A
  robbed : A → List A

/-- Nothing has been called yet. -/
def Log.empty : Log A V where
  fst _ := .panic
  snd _ := .panic
  starts _ := 0
  entry _ := []
  robbed _ := []

variable [DecidableEq W] [DecidableEq A]

/-- The worker is about to take the closure of its topmost frame's task. -/
def Worker.fresh (wk : Worker W A V) : Option A :=
  match wk.ctl, wk.stack with
  | .step, .exec t :: _ | .step, .inline t _ _ :: _ => some t
  | _, _ => none

/-- A call of `a` and `b` begins, with its task at `t`. -/
def Log.opens (l : Log A V) (t : A) (a b : Prog V) (d : List A) : Log A V where
  fst := Function.update l.fst t a
  snd := Function.update l.snd t b
  starts := Function.update l.starts t 0
  entry := Function.update l.entry t d
  robbed := Function.update l.robbed t []

/-- What a step adds to the history. -/
def Log.add (l : Log A V) (s : State W A V) : Action W A → Log A V
  | .step w =>
      match (s.worker w).fresh with
      | some t =>
          if (s.task t).func.isSome = true then
            { l with starts := Function.update l.starts t (l.starts t + 1) }
          else l
      | none => l
  | .call w t =>
      match (s.worker w).ctl with
      | .run (.parallelCall a b _) => l.opens t a b (s.worker w).deque
      | _ => l
  | .steal _ v =>
      match (s.worker v).deque.getLast? with
      | some x =>
          { l with
            robbed := fun t => if t ∈ (s.worker v).owns then x :: l.robbed t else l.robbed t }
      | none => l

/-- The engine, started with the program `p`. -/
def engine (p : Prog V) : System (State W A V) (Action W A) :=
  { (system : System (State W A V) (Action W A)) with
    init := fun s => ∃ w₀ handles, Started s w₀ handles p }

/-- The engine with its history. -/
def logged (p : Prog V) : System (State W A V × Log A V) (Action W A) :=
  (engine p).trace Log.empty Log.add

end Scoped

end Cmpth

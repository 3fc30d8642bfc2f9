import Mathlib.Data.List.Induction
import Mathlib.Tactic.Common

/-!
# Two Run Queues

What a worker is to run next. `push` is for an item to run next, `defer` for one to run
after what is queued. `SpinRunQueue` has one `VecDeque` and does that literally.
`HybridRunQueue` has a lock-free deque for what is pushed, and for what is deferred a
second queue behind a lock, with a flag in front that spares the lock where nothing is
deferred.

Without thieves the two are the same queue. The first of the two hybrid queues followed
by the second is the content of the other, and the flag says whether the second has
anything.

## Main definitions

* `WorkerRunQueue`, `Op`: The owner's side of a run queue.
* `spinRunQueue`, `hybridRunQueue`: The two queues of the code.
* `InTurn`: An item comes out before what is behind it, and not before its turn.

## Theorems

* `defers_append`, `run_append`: A sequence of operations in two parts.
* `Simulates.run`: Related queues return the same items.
* `agrees_empty`: Queues with nothing in them agree.
* `hybrid_simulates`: The two queues are related.
* `hybrid_inTurn`: Where an item is queued it stays until it is in front.
* `hybrid_run`: For every sequence of the owner's operations, the two queues return the same items
  and hold the same.
-/

namespace Cmpth

namespace RunQueue

/-- The owner's side of a run queue. -/
structure WorkerRunQueue (Q T : Type*) where
  push : Q → T → Q
  defer : Q → T → Q
  tryPop : Q → Option T × Q

/-- The operations of the owner. -/
inductive Op (T : Type*) where
  | push (v : T)
  | defer (v : T)
  | tryPop
  deriving DecidableEq, Repr

variable {Q R T : Type*}

/-- What the operations have deferred. -/
def defers : List (Op T) → List T
  | [] => []
  | .defer v :: ops => v :: defers ops
  | .push _ :: ops | .tryPop :: ops => defers ops

@[simp]
theorem defers_append (ops ops' : List (Op T)) :
    defers (ops ++ ops') = defers ops ++ defers ops' := by
  induction ops with
  | nil => rfl
  | cons o ops ih => cases o <;> simp [defers, ih]

namespace WorkerRunQueue

/-- The queue after an operation. -/
def after (w : WorkerRunQueue Q T) (q : Q) : Op T → Q
  | .push v => w.push q v
  | .defer v => w.defer q v
  | .tryPop => (w.tryPop q).2

/-- The queue after a sequence of operations. -/
def run (w : WorkerRunQueue Q T) (q : Q) (ops : List (Op T)) : Q :=
  ops.foldl w.after q

/-- What the `try_pop`s of a sequence of operations return. -/
def pops (w : WorkerRunQueue Q T) : Q → List (Op T) → List (Option T)
  | _, [] => []
  | q, .push v :: ops => pops w (w.push q v) ops
  | q, .defer v :: ops => pops w (w.defer q v) ops
  | q, .tryPop :: ops => (w.tryPop q).1 :: pops w (w.tryPop q).2 ops

@[simp]
theorem run_append (w : WorkerRunQueue Q T) (q : Q) (ops ops' : List (Op T)) :
    w.run q (ops ++ ops') = w.run (w.run q ops) ops' :=
  List.foldl_append

end WorkerRunQueue

/-- Every operation keeps the relation, and `try_pop` returns the same item. -/
structure Simulates (w : WorkerRunQueue Q T) (x : WorkerRunQueue R T) (rel : Q → R → Prop) :
    Prop where
  push : ∀ q r v, rel q r → rel (w.push q v) (x.push r v)
  defer : ∀ q r v, rel q r → rel (w.defer q v) (x.defer r v)
  tryPop : ∀ q r, rel q r → (w.tryPop q).1 = (x.tryPop r).1 ∧ rel (w.tryPop q).2 (x.tryPop r).2

theorem Simulates.run {w : WorkerRunQueue Q T} {x : WorkerRunQueue R T} {rel : Q → R → Prop}
    (h : Simulates w x rel) : ∀ (ops : List (Op T)) (q : Q) (r : R), rel q r →
      w.pops q ops = x.pops r ops ∧ rel (w.run q ops) (x.run r ops) := by
  intro ops
  -- By induction on the calls, with the content at each.
  induction ops with
  | nil =>
      intro q r hrel
      exact ⟨rfl, hrel⟩
  | cons o ops ih =>
      intro q r hrel
      cases o with
      | push v => exact ih _ _ (h.push q r v hrel)
      | defer v => exact ih _ _ (h.defer q r v hrel)
      | tryPop =>
          have hpop := h.tryPop q r hrel
          have hrest := ih _ _ hpop.2
          refine ⟨?_, hrest.2⟩
          simp only [WorkerRunQueue.pops]
          rw [hpop.1, hrest.1]

/-- `SpinRunQueue`: `push_front`, `push_back` and `pop_front`. -/
def spinRunQueue (T : Type*) : WorkerRunQueue (List T) T where
  push q v := v :: q
  defer q v := q ++ [v]
  tryPop q := (q.head?, q.tail)

/-- The queue of what is deferred, with its flag. -/
structure Deferred (T : Type*) where
  nonEmpty : Bool
  q : List T
  deriving DecidableEq, Repr

namespace Deferred

/-- `push` of the deferred queue. -/
def push (d : Deferred T) (v : T) : Deferred T where
  nonEmpty := true
  q := d.q ++ [v]

/-- `try_take` of the deferred queue, which looks at the flag first. -/
def tryTake (d : Deferred T) : Option T × Deferred T :=
  if d.nonEmpty = true then
    (d.q.head?, { nonEmpty := if d.q.tail.isEmpty = true then false else d.nonEmpty
                  q := d.q.tail })
  else (none, d)

/-- The flag says whether there is anything inside. -/
def Shown (d : Deferred T) : Prop :=
  d.nonEmpty = !d.q.isEmpty

theorem Shown.push (d : Deferred T) (v : T) : (d.push v).Shown := by
  simp [Shown, Deferred.push]

-- The shortcut past the lock returns what the section would have returned.
theorem Shown.tryTake {d : Deferred T} (h : d.Shown) :
    d.tryTake.1 = d.q.head? ∧ d.tryTake.2.q = d.q.tail ∧ d.tryTake.2.Shown := by
  unfold Shown at h
  unfold Deferred.tryTake
  -- A flag that is down says that the queue is empty.
  by_cases hflag : d.nonEmpty = true
  · rw [if_pos hflag]
    refine ⟨rfl, rfl, ?_⟩
    unfold Shown
    cases htail : d.q.tail with
    | nil => rfl
    | cons v rest => simp [hflag]
  · rw [if_neg hflag]
    have hnil : d.q = [] := by
      rw [Bool.not_eq_true] at hflag
      rw [hflag] at h
      simpa using h.symm
    rw [hnil]
    refine ⟨rfl, rfl, ?_⟩
    unfold Shown
    rw [hnil]
    simpa using hflag

end Deferred

/-- A hybrid queue. The head of `main` is the owner's end. -/
structure HybridRunQueue (T : Type*) where
  main : List T
  deferred : Deferred T
  deriving DecidableEq, Repr

namespace HybridRunQueue

/-- `HybridRunQueue::default`. -/
def empty (T : Type*) : HybridRunQueue T where
  main := []
  deferred := { nonEmpty := false, q := [] }

/-- `try_pop`: the main queue, and then the deferred one. -/
def tryPop (h : HybridRunQueue T) : Option T × HybridRunQueue T :=
  match h.main with
  | v :: main => (some v, { h with main })
  | [] => (h.deferred.tryTake.1, { h with deferred := h.deferred.tryTake.2 })

/-- What is queued, in the order it is popped in. -/
def content (h : HybridRunQueue T) : List T :=
  h.main ++ h.deferred.q

end HybridRunQueue

/-- `HybridRunQueue`, with the LIFO deque of its owner. -/
def hybridRunQueue (T : Type*) : WorkerRunQueue (HybridRunQueue T) T where
  push h v := { h with main := v :: h.main }
  defer h v := { h with deferred := h.deferred.push v }
  tryPop := HybridRunQueue.tryPop

/-- The content is that of the other queue, and the flag is right. -/
def Agrees (h : HybridRunQueue T) (q : List T) : Prop :=
  h.content = q ∧ h.deferred.Shown

theorem agrees_empty : Agrees (HybridRunQueue.empty T) [] :=
  ⟨rfl, rfl⟩

theorem hybrid_simulates : Simulates (hybridRunQueue T) (spinRunQueue T) Agrees where
  push h q v := by
    rintro ⟨rfl, hshown⟩
    exact ⟨rfl, hshown⟩
  defer h q v := by
    rintro ⟨rfl, hshown⟩
    refine ⟨?_, Deferred.Shown.push _ v⟩
    exact (List.append_assoc h.main h.deferred.q [v]).symm
  tryPop h q := by
    rintro ⟨rfl, hshown⟩
    rcases hshown.tryTake with ⟨hitem, hrest, hshown'⟩
    rcases h with ⟨main, deferred⟩
    cases main with
    | cons v main => exact ⟨rfl, rfl, hshown⟩
    | nil => exact ⟨hitem, hrest, hshown'⟩

/-! ### The order of the items -/

/-- After the operations, the item still has `behind` behind it and what was deferred
    since, or else a `try_pop` among them has found it in front, with all of that still
    behind it. -/
def InTurn (w : WorkerRunQueue Q T) (content : Q → List T) (q : Q) (v : T) (behind : List T)
    (ops : List (Op T)) : Prop :=
  (∃ ahead, content (w.run q ops) = ahead ++ v :: (behind ++ defers ops)) ∨
    ∃ ops₁ ops₂, ops = ops₁ ++ .tryPop :: ops₂ ∧
      content (w.run q ops₁) = v :: (behind ++ defers ops₁) ∧ (w.tryPop (w.run q ops₁)).1 = some v

-- Induction on the operations from the last one, since what is behind the item grows at
-- the end.
theorem spin_inTurn (ahead behind : List T) (v : T) (ops : List (Op T)) :
    InTurn (spinRunQueue T) id (ahead ++ v :: behind) v behind ops := by
  induction ops using List.reverseRecOn with
  | nil => exact .inl ⟨ahead, by simp [defers, WorkerRunQueue.run]⟩
  | append_singleton ops o ih =>
      rcases ih with ⟨front, hq⟩ | ⟨ops₁, ops₂, rfl, hq, hpop⟩
      · change (spinRunQueue T).run _ ops = _ at hq
        have hrun : (spinRunQueue T).run (ahead ++ v :: behind) (ops ++ [o]) =
            (spinRunQueue T).after (front ++ v :: (behind ++ defers ops)) o := by
          rw [WorkerRunQueue.run_append, hq]
          rfl
        cases o with
        | push u =>
            refine .inl ⟨u :: front, ?_⟩
            change (spinRunQueue T).run _ _ = _
            rw [hrun]
            simp [spinRunQueue, WorkerRunQueue.after, defers]
        | defer u =>
            refine .inl ⟨front, ?_⟩
            change (spinRunQueue T).run _ _ = _
            rw [hrun]
            simp [spinRunQueue, WorkerRunQueue.after, defers]
        | tryPop =>
            cases front with
            | nil =>
                -- Its turn.
                refine .inr ⟨ops, [], rfl, hq, ?_⟩
                rw [hq]
                rfl
            | cons u front =>
                refine .inl ⟨front, ?_⟩
                change (spinRunQueue T).run _ _ = _
                rw [hrun]
                simp [spinRunQueue, WorkerRunQueue.after, defers]
      · refine .inr ⟨ops₁, ops₂ ++ [o], ?_, hq, hpop⟩
        rw [List.append_assoc]
        rfl

-- What holds of the content of one queue holds of the other's.
theorem hybrid_inTurn {h : HybridRunQueue T} {ahead behind : List T} {v : T}
    (hq : Agrees h (ahead ++ v :: behind)) (ops : List (Op T)) :
    InTurn (hybridRunQueue T) HybridRunQueue.content h v behind ops := by
  have hrun (ops' : List (Op T)) := (hybrid_simulates.run ops' h _ hq).2
  rcases spin_inTurn ahead behind v ops with ⟨front, hfront⟩ | ⟨ops₁, ops₂, rfl, hfront, hpop⟩
  · exact .inl ⟨front, (hrun ops).1.trans hfront⟩
  · refine .inr ⟨ops₁, ops₂, rfl, (hrun ops₁).1.trans hfront, ?_⟩
    exact (hybrid_simulates.tryPop _ _ (hrun ops₁)).1.trans hpop

/-- For every sequence of the owner's operations, the two queues return the same items and
    hold the same. -/
theorem hybrid_run (ops : List (Op T)) :
    (hybridRunQueue T).pops (HybridRunQueue.empty T) ops = (spinRunQueue T).pops [] ops ∧
      Agrees ((hybridRunQueue T).run (HybridRunQueue.empty T) ops)
        ((spinRunQueue T).run [] ops) :=
  hybrid_simulates.run ops _ _ agrees_empty

end RunQueue

end Cmpth

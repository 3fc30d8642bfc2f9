import Cmpth.Core.System
import Mathlib.Data.List.Nodup
import Mathlib.Logic.Function.Basic

/-!
# Wait Slots in a Queue

The generic `Mutex`, `Condvar` and `Barrier` keep the slots of their waiters in a
`VecDeque`. A waiter pushes a slot and waits in it by reference; whoever notifies
it moves the slot out of the queue first, and notifies the moved one. From then
on the place in the queue is not the waiter's any more. A later waiter's slot may
be there.

What a waiter does in its slot depends on the slot. A ULT publishes its
continuation there, before the spinlock that guards the queue is dropped, and so
does an OS thread that waits in a `DualResumable`, whose parker is in its own
frame. Neither looks at the slot again. `OsSuspendedThread::wait_with` stores its
parker there likewise, but once it has been woken it also resets the slot.

The three primitives differ in what is done to the queue under the spinlock, and
this is what a `Primitive` says. Any of its operations is admitted at any time by
any thread that is not waiting, so that the runs here are more than the ones that
handle their guards well. A thread's callback that goes on to another primitive,
as a condvar's to the mutex, is a thread of that one.

A push may find the queue's buffer full, and then all slots are moved to a new
one: every slot in it is given a place anew.

## Main definitions

* `Primitive`: What an operation does under the spinlock.
* `mutex`, `condvar`, `barrier`: The three primitives.
* `Kind`: The kinds of slots.
* `system`: A primitive over slots as a guarded transition system.
* `Untouched`: No waiter has touched a slot that had been moved out.
* `NoReset`: The step does not reset a slot after the wake.

## Theorems

* `Slot.write_owner`, `owner_write`: A store to a slot leaves its owner.
* `owner_moveTo`: New places do not change whose the slots are.
* `Inv.not_waits`, `Inv.nobody`: Who is not waiting, and who has the spinlock.
* `Inv.parked`: With the spinlock free, whoever waits has parked.
* `inv_push`, `inv_call`, `inv_publish`, `inv_release`, `inv_finish`, `inv_init`: The steps, one by
  one.
* `Inv.moves`: Slots move out of the queue while nobody holds the spinlock.
* `Inv.writes`: What a waiter writes while its slot is in the queue.
* `Inv.goes`: A thread goes on, with what it has in the queue as it was.
* `inv_notify`: A notify wakes whose slot it is, which has gone from the queue.
* `inv_next`: Every other step keeps the invariant.
* `not_untouched`: A reset comes when the slot is gone.
* `untouched_iff`: A run touches no slot that was moved out exactly if nothing in it is reset.
* `untouched_unless_os`: Only an `OsSuspendedThread` is reset.
* `untouched_handedOver`: A mutex that is handed over.
* `reset_clears`: A reset that loses another waiter's wake.
-/

namespace Cmpth

namespace Parking

/-- What an operation does to the queue. -/
inductive Effect where
  | pass
  /-- `push_back`, and `wait_with` in the new slot. -/
  | push
  | popFront
  | drain
  deriving DecidableEq, Repr

/-- What is done under the spinlock, with so many slots in the queue. -/
structure Primitive (D Op : Type*) where
  sect : D → ℕ → Op → D × Effect

/-- The operations of the mutex. -/
inductive MutexOp where
  | lock
  | unlock
  deriving DecidableEq, Repr

/-- `mutex_lock` and `mutex_unlock`, on `locked`. -/
def mutex : Primitive Bool MutexOp where
  sect
    | locked, _, .lock => if locked then (true, .push) else (true, .pass)
    | locked, waiters, .unlock => if waiters = 0 then (false, .pass) else (locked, .popFront)

/-- The operations of the condvar. -/
inductive CondvarOp where
  | wait
  | notifyOne
  | notifyAll
  deriving DecidableEq, Repr

/-- The condvar: waits are queued, and notifies take out one or all. -/
def condvar : Primitive Unit CondvarOp where
  sect
    | _, _, .wait => ((), .push)
    | _, _, .notifyOne => ((), .popFront)
    | _, _, .notifyAll => ((), .drain)

/-- `BarrierCore::wait`, on `count`. -/
def barrier (n : ℕ) : Primitive ℕ Unit where
  sect count _ _ := if count + 1 = n then (0, .drain) else (count + 1, .push)

/-- What a thread waits in. -/
inductive Kind where
  /-- `BasicStackfulOnlyResumable`, or a ULT in a `DualResumable`. -/
  | ult
  /-- An OS thread in a `DualResumable`. -/
  | parker
  /-- `OsSuspendedThread`. -/
  | os
  deriving DecidableEq, Repr

/-- How far a thread is in `wait_with`, with the place of its slot as it knows it. -/
inductive Stage where
  | out
  /-- The slot is pushed and the spinlock held. -/
  | pushed (place : ℕ)
  /-- It is in the slot, and `f` is about to drop the spinlock. -/
  | published (place : ℕ)
  | parked (place : ℕ)
  | woken (place : ℕ)
  deriving DecidableEq, Repr

/-- The thread has not been woken yet. -/
def Stage.waits : Stage → Bool
  | .out | .woken _ => false
  | .pushed _ | .published _ | .parked _ => true

/-- The place of a slot whose waiter holds the spinlock. -/
def Stage.holds : Stage → Option ℕ
  | .pushed a | .published a => some a
  | .out | .parked _ | .woken _ => none

/-- A slot in the queue: whose it is, where, and whether there is something in it to
    wake. -/
structure Slot (T : Type*) where
  owner : T
  place : ℕ
  full : Bool
  deriving DecidableEq, Repr

/-- A slot that is pushed is empty. -/
def Slot.fresh {T : Type*} (t : T) : Slot T :=
  { owner := t, place := 0, full := false }

/-- The slot, at another place. -/
def Slot.moveTo {T : Type*} (e : Slot T) (a : ℕ) : Slot T :=
  { e with place := a }

/-- What is at the place is filled or emptied, whosever it is. -/
def Slot.write {T : Type*} (a : ℕ) (full : Bool) (e : Slot T) : Slot T :=
  if e.place = a then { e with full := full } else e

/-- The primitive and its threads. `moved` are the slots that have been moved out
    and are to be notified; `late` records the waiters that have touched their slot
    after that. -/
structure State (D T : Type*) where
  data : D
  spin : Bool
  queue : List (Slot T)
  moved : List (T × Bool)
  stage : T → Stage
  late : List T

/-- The steps of an operation, and what waiters do to their slots. -/
inductive Action (Op T : Type*) where
  /-- An operation's section, and the places of the slots in case it pushes one. -/
  | call (t : T) (op : Op) (places : List ℕ)
  /-- The slot is filled. -/
  | publish (t : T)
  /-- `f`: the spinlock is dropped. -/
  | release (t : T)
  /-- `notify` on a slot that was moved out. -/
  | notify (x : T × Bool)
  /-- A woken thread returns. -/
  | finish (t : T)
  /-- A woken OS thread resets its slot, and returns. -/
  | reset (t : T)
  deriving DecidableEq, Repr

section

variable {D Op T : Type*} [DecidableEq T]

/-- The thread's slot is where it knows it to be. -/
def Present (s : State D T) (t : T) (a : ℕ) : Prop :=
  ∃ e ∈ s.queue, e.owner = t ∧ e.place = a

instance (s : State D T) (t : T) (a : ℕ) : Decidable (Present s t a) :=
  inferInstanceAs (Decidable (∃ e ∈ s.queue, e.owner = t ∧ e.place = a))

namespace State

/-- A waiter writes the slot at a place, whosever it is. -/
def write (s : State D T) (t : T) (a : ℕ) (full : Bool) : State D T :=
  { s with
    queue := s.queue.map (Slot.write a full)
    late := if Present s t a then s.late else t :: s.late }

/-- What an operation does to the queue. -/
def apply (s : State D T) (t : T) (places : List ℕ) : Effect → State D T
  | .pass => s
  | .push =>
      { s with
        spin := true
        queue := (s.queue ++ [Slot.fresh t]).zipWith Slot.moveTo places
        stage := Function.update s.stage t (.pushed (places.getLastD 0)) }
  | .popFront => match s.queue with
      | [] => s
      | e :: rest => { s with queue := rest, moved := s.moved ++ [(e.owner, e.full)] }
  | .drain =>
      { s with queue := [], moved := s.moved ++ s.queue.map fun e => (e.owner, e.full) }

end State

/-- When an action is enabled. -/
def guard (kind : T → Kind) (s : State D T) : Action Op T → Prop
  | .call t _ places => s.spin = false ∧ s.stage t = .out ∧ places.Nodup ∧
      places.length = s.queue.length + 1
  | .publish t => (match s.stage t with
      | .pushed _ => true
      | _ => false) = true
  | .release t => (match s.stage t with
      | .published _ => true
      | _ => false) = true
  | .notify x => x ∈ s.moved
  | .finish t => kind t ≠ .os ∧ (match s.stage t with
      | .woken _ => true
      | _ => false) = true
  | .reset t => kind t = .os ∧ (match s.stage t with
      | .woken _ => true
      | _ => false) = true

instance (kind : T → Kind) (s : State D T) (a : Action Op T) : Decidable (guard kind s a) := by
  cases a <;> unfold guard <;> infer_instance

/-- The state an action leads to. -/
def next (P : Primitive D Op) (s : State D T) : Action Op T → State D T
  | .call t op places =>
      let r := P.sect s.data s.queue.length op
      State.apply { s with data := r.1 } t places r.2
  | .publish t => match s.stage t with
      | .pushed a => { s.write t a true with stage := Function.update s.stage t (.published a) }
      | _ => s
  | .release t => match s.stage t with
      | .published a =>
          { s with spin := false, stage := Function.update s.stage t (.parked a) }
      | _ => s
  | .notify x =>
      let s1 := { s with moved := s.moved.erase x }
      if x.2 = true then
        match s.stage x.1 with
        | .parked a => { s1 with stage := Function.update s.stage x.1 (.woken a) }
        | _ => s1
      else s1
  | .finish t => { s with stage := Function.update s.stage t .out }
  | .reset t => match s.stage t with
      | .woken a => { s.write t a false with stage := Function.update s.stage t .out }
      | _ => s

/-- A primitive over slots as a guarded transition system. -/
def system (P : Primitive D Op) (kind : T → Kind) (d : D) : System (State D T) (Action Op T) where
  init s := s.data = d ∧ s.spin = false ∧ s.queue = [] ∧ s.moved = [] ∧
    (∀ t, s.stage t = .out) ∧ s.late = []
  guard := guard kind
  next := next P

instance (P : Primitive D Op) (kind : T → Kind) (d : D) (s : State D T) (a : Action Op T) :
    Decidable ((system P kind d).guard s a) :=
  inferInstanceAs (Decidable (guard kind s a))

end

/-- No waiter has touched a slot that had been moved out. -/
def Untouched {D T : Type*} (s : State D T) : Prop :=
  s.late = []

/-- The step is no reset of a slot. -/
def NoReset {D Op T : Type*} (_ : State D T) : Action Op T → Prop
  | .reset _ => False
  | _ => True

instance {D Op T : Type*} (s : State D T) : ∀ a : Action Op T, Decidable (NoReset s a)
  | .reset _ => inferInstanceAs (Decidable False)
  | .call .. | .publish _ | .release _ | .notify _ | .finish _ => inferInstanceAs (Decidable True)

/-- The invariant of the queue. -/
structure Inv {D T : Type*} (s : State D T) : Prop where
  nodup : (s.queue.map Slot.owner ++ s.moved.map Prod.fst).Nodup
  queued : ∀ e ∈ s.queue, (s.stage e.owner).waits = true
  moved : ∀ x ∈ s.moved, ∃ a, s.stage x.1 = .parked a
  present : ∀ t a, (s.stage t).holds = some a → Present s t a
  /-- Whoever has not parked holds the spinlock. -/
  alone : ∀ t a, (s.stage t).holds = some a →
    s.spin = true ∧ ∀ u b, (s.stage u).holds = some b → u = t
  untouched : Untouched s

variable {D Op T : Type*} {P : Primitive D Op} {kind : T → Kind} {d : D} {s : State D T} {t : T}
  {a : ℕ}

theorem Slot.write_owner (a : ℕ) (full : Bool) (e : Slot T) :
    (Slot.write a full e).owner = e.owner ∧ (Slot.write a full e).place = e.place := by
  unfold Slot.write
  split <;> exact ⟨rfl, rfl⟩

theorem owner_write (a : ℕ) (full : Bool) (l : List (Slot T)) :
    (l.map (Slot.write a full)).map Slot.owner = l.map Slot.owner := by
  rw [List.map_map]
  exact List.map_congr_left fun e _ => (Slot.write_owner a full e).1

/-- New places do not change whose the slots are. -/
theorem owner_moveTo : ∀ (l : List (Slot T)) (places : List ℕ), places.length = l.length →
    (l.zipWith Slot.moveTo places).map Slot.owner = l.map Slot.owner := by
  intro l
  induction l with
  | nil => exact fun _ _ => rfl
  | cons e l ih =>
      intro places hlen
      cases places with
      | nil => cases hlen
      | cons a places => exact congrArg (e.owner :: ·) (ih places (Nat.succ.inj hlen))

theorem Inv.not_waits (h : Inv s) (ht : (s.stage t).waits = false) :
    t ∉ s.queue.map Slot.owner ++ s.moved.map Prod.fst := by
  intro hm
  rcases List.mem_append.mp hm with hm | hm
  · rcases List.mem_map.mp hm with ⟨e, he, rfl⟩
    rw [h.queued e he] at ht
    cases ht
  · rcases List.mem_map.mp hm with ⟨x, hx, rfl⟩
    rcases h.moved x hx with ⟨a, ha⟩
    rw [ha] at ht
    cases ht

/-- With the spinlock free, whoever waits has parked. -/
theorem Inv.parked (h : Inv s) (hspin : s.spin = false) (ht : (s.stage t).waits = true) :
    ∃ a, s.stage t = .parked a := by
  cases hst : s.stage t with
  | parked a => exact ⟨a, rfl⟩
  | pushed a | published a =>
      have hheld := (h.alone t a (by rw [hst]; rfl)).1
      rw [hspin] at hheld
      cases hheld
  | out | woken a =>
      rw [hst] at ht
      cases ht

theorem Inv.nobody (h : Inv s) (hspin : s.spin = false) : (s.stage t).holds = none := by
  cases hst : (s.stage t).holds with
  | none => rfl
  | some a =>
      have hheld := (h.alone t a hst).1
      rw [hspin] at hheld
      cases hheld

section

variable [DecidableEq T]

theorem inv_push (h : Inv s) (hspin : s.spin = false) (ht : s.stage t = .out) (data : D)
    {places : List ℕ} (hlen : places.length = s.queue.length + 1) :
    Inv (State.apply { s with data := data } t places .push) := by
  have hnew : t ∉ s.queue.map Slot.owner ++ s.moved.map Prod.fst :=
    h.not_waits (by rw [ht]; rfl)
  have howners : ((s.queue ++ [Slot.fresh t]).zipWith Slot.moveTo places).map Slot.owner =
      s.queue.map Slot.owner ++ [t] := by
    rw [owner_moveTo, List.map_append]
    · rfl
    · rw [hlen, List.length_append]
      rfl
  have hothers : ∀ u, u ≠ t → (Function.update s.stage t (.pushed (places.getLastD 0)) u) =
      s.stage u := fun u hu => Function.update_of_ne hu _ _
  refine ⟨?_, fun e he => ?_, fun x hx => ?_, fun u a hu => ?_, fun u a hu => ⟨rfl, ?_⟩,
    h.untouched⟩
  · change (((s.queue ++ [Slot.fresh t]).zipWith Slot.moveTo places).map Slot.owner ++
      s.moved.map Prod.fst).Nodup
    rw [howners]
    refine ((List.nodup_cons.mpr ⟨hnew, h.nodup⟩).perm ?_)
    rw [List.append_assoc]
    exact List.perm_middle.symm
  · have hmem : e.owner ∈ s.queue.map Slot.owner ++ [t] := by
      rw [← howners]
      exact List.mem_map_of_mem he
    change (Function.update s.stage t _ e.owner).waits = true
    by_cases het : e.owner = t
    · rw [het, Function.update_self]
      rfl
    · rw [hothers _ het]
      rcases List.mem_append.mp hmem with hmem | hmem
      · rcases List.mem_map.mp hmem with ⟨e', he', ho⟩
        rw [← ho]
        exact h.queued e' he'
      · exact absurd (List.mem_singleton.mp hmem) het
  · have hxt : x.1 ≠ t := by
      intro he
      exact hnew (List.mem_append_right _ (he ▸ List.mem_map_of_mem hx))
    change ∃ a, Function.update s.stage t _ x.1 = .parked a
    rw [hothers _ hxt]
    exact h.moved x hx
  · have hut : u = t := by
      by_contra hut
      change (Function.update s.stage t _ u).holds = _ at hu
      rw [hothers u hut, h.nobody hspin] at hu
      cases hu
    change (Function.update s.stage t _ u).holds = _ at hu
    rw [hut, Function.update_self] at hu
    cases hu
    subst hut
    -- The new slot is the last, and so is its place.
    rcases List.eq_nil_or_concat places with rfl | ⟨ps, b, rfl⟩
    · cases hlen
    · have hps : s.queue.length = ps.length := by
        rw [List.concat_eq_append, List.length_append] at hlen
        exact (Nat.succ.inj hlen).symm
      rw [List.concat_eq_append] at *
      rw [List.getLastD_concat]
      refine ⟨(Slot.fresh u).moveTo b, ?_, rfl, rfl⟩
      change _ ∈ (s.queue ++ [Slot.fresh u]).zipWith Slot.moveTo (ps ++ [b])
      rw [List.zipWith_append hps]
      exact List.mem_append_right _ (List.mem_singleton_self _)
  · intro v b hv
    have holder : ∀ v b, (Function.update s.stage t (.pushed (places.getLastD 0)) v).holds =
        some b → v = t := by
      intro v b hv
      by_contra hvt
      rw [hothers v hvt, h.nobody hspin] at hv
      cases hv
    exact (holder v b hv).trans (holder u a hu).symm

omit [DecidableEq T] in
/-- Slots move out of the queue while nobody holds the spinlock. -/
theorem Inv.moves (h : Inv s) (hspin : s.spin = false) (data : D)
    {queue : List (Slot T)} (gone : List (Slot T)) (hq : s.queue = gone ++ queue) :
    Inv { s with
      data := data
      queue := queue
      moved := s.moved ++ gone.map fun e => (e.owner, e.full) } where
  nodup := by
    have hnodup := h.nodup
    rw [hq, List.map_append] at hnodup
    refine hnodup.perm ?_
    have hgone : (gone.map fun e => (e.owner, e.full)).map Prod.fst = gone.map Slot.owner := by
      rw [List.map_map]
      rfl
    dsimp only
    rw [List.map_append, hgone, List.append_assoc]
    refine List.perm_append_comm.trans ?_
    rw [List.append_assoc]
  queued := by
    intro e he
    exact h.queued e (by rw [hq]; exact List.mem_append_right _ he)
  moved := by
    intro x hx
    -- A slot that is moved now was in the queue, whose owners have all published.
    rcases List.mem_append.mp hx with hx | hx
    · exact h.moved x hx
    · rcases List.mem_map.mp hx with ⟨e, he, rfl⟩
      exact h.parked hspin (h.queued e (by rw [hq]; exact List.mem_append_left _ he))
  present := by
    intro u a hu
    rw [h.nobody hspin] at hu
    cases hu
  alone := h.alone
  untouched := h.untouched

theorem inv_call (h : Inv s) {op : Op} {places : List ℕ}
    (hg : guard kind s (.call t op places)) : Inv (next P s (.call t op places)) := by
  obtain ⟨hspin, ht, -, hlen⟩ := hg
  unfold next
  dsimp only
  cases (P.sect s.data s.queue.length op).2 with
  | pass => exact { h with }
  | push => exact inv_push h hspin ht _ hlen
  | popFront =>
      unfold State.apply
      dsimp only
      split
      next => exact { h with }
      next e rest hq => exact h.moves hspin _ [e] hq
  | drain => exact h.moves hspin _ s.queue (List.append_nil _).symm

/-- What a waiter writes while its slot is in the queue. -/
theorem Inv.writes (h : Inv s) (hp : Present s t a) (full : Bool) : Inv (s.write t a full) where
  nodup := by
    change ((s.queue.map (Slot.write a full)).map Slot.owner ++ _).Nodup
    rw [owner_write]
    exact h.nodup
  queued := by
    intro e he
    -- A write changes the flag of one slot, and no owner.
    rcases List.mem_map.mp he with ⟨e', he', rfl⟩
    rw [(Slot.write_owner a full e').1]
    exact h.queued e' he'
  moved := h.moved
  present := by
    intro u b hu
    rcases h.present u b hu with ⟨e, he, ho, hpl⟩
    refine ⟨Slot.write a full e, List.mem_map_of_mem he, ?_, ?_⟩
    · rw [(Slot.write_owner a full e).1]
      exact ho
    · rw [(Slot.write_owner a full e).2]
      exact hpl
  alone := h.alone
  untouched := by
    change (if Present s t a then s.late else t :: s.late) = []
    rw [if_pos hp]
    exact h.untouched

/-- A thread goes on, with what it has in the queue as it was. -/
theorem Inv.goes (h : Inv s) {st : Stage} {spin : Bool}
    (hwaits : (s.stage t).waits = true → st.waits = true)
    (hparked : ∀ a, s.stage t = .parked a → ∃ b, st = .parked b)
    (hholds : ∀ a, st.holds = some a → (s.stage t).holds = some a)
    (hspin : spin = s.spin ∨ (∃ a, (s.stage t).holds = some a) ∧ st.holds = none) :
    Inv { s with spin := spin, stage := Function.update s.stage t st } where
  nodup := h.nodup
  queued := by
    intro e he
    have hold := h.queued e he
    change (Function.update s.stage t st e.owner).waits = true
    by_cases het : e.owner = t
    · rw [het] at hold
      rw [het, Function.update_self]
      exact hwaits hold
    · rw [Function.update_of_ne het]
      exact hold
  moved := by
    intro x hx
    rcases h.moved x hx with ⟨a, ha⟩
    change ∃ a, Function.update s.stage t st x.1 = .parked a
    by_cases hxt : x.1 = t
    · rw [hxt] at ha
      rw [hxt, Function.update_self]
      exact hparked a ha
    · rw [Function.update_of_ne hxt]
      exact ⟨a, ha⟩
  present := by
    intro u a hu
    change (Function.update s.stage t st u).holds = some a at hu
    by_cases hut : u = t
    · rw [hut, Function.update_self] at hu
      rw [hut]
      exact h.present t a (hholds a hu)
    · rw [Function.update_of_ne hut] at hu
      exact h.present u a hu
  alone := by
    have hold : ∀ u a, (Function.update s.stage t st u).holds = some a →
        (s.stage u).holds = some a := by
      intro u a hu
      by_cases hut : u = t
      · rw [hut, Function.update_self] at hu
        rw [hut]
        exact hholds a hu
      · rwa [Function.update_of_ne hut] at hu
    intro u a hu
    refine ⟨?_, fun v b hv => (h.alone u a (hold u a hu)).2 v b (hold v b hv)⟩
    rcases hspin with he | ⟨⟨b, hb⟩, hnone⟩
    · exact he.trans (h.alone u a (hold u a hu)).1
    · -- The one who held the spinlock has dropped it, and nobody else did.
      have hut := (h.alone t b hb).2 u a (hold u a hu)
      change (Function.update s.stage t st u).holds = some a at hu
      rw [hut, Function.update_self, hnone] at hu
      cases hu
  untouched := h.untouched

theorem inv_publish (h : Inv s) : Inv (next P s (.publish t : Action Op T)) := by
  unfold next
  dsimp only
  split
  next a hst =>
    have hp := h.present t a (by rw [hst]; rfl)
    exact (h.writes hp true).goes (fun _ => rfl)
      (fun b hb => by rw [show (s.write t a true).stage t = _ from hst] at hb; cases hb)
      (fun b hb => by cases hb; exact congrArg Stage.holds hst) (.inl rfl)
  next => exact h

theorem inv_release (h : Inv s) : Inv (next P s (.release t : Action Op T)) := by
  unfold next
  dsimp only
  split
  next a hst =>
    refine h.goes (fun _ => rfl) (fun b hb => ?_) nofun (.inr ⟨⟨a, by rw [hst]; rfl⟩, rfl⟩)
    rw [hst] at hb
    cases hb
  next => exact h

theorem inv_finish (h : Inv s) (hg : guard kind s (.finish t : Action Op T)) :
    Inv (next P s (.finish t : Action Op T)) := by
  cases hst : s.stage t with
  | woken a =>
      refine h.goes (fun hw => ?_) (fun b hb => ?_) nofun (.inl rfl)
      · rw [hst] at hw
        cases hw
      · rw [hst] at hb
        cases hb
  | out | pushed a | published a | parked a =>
      have hwoken := hg.2
      rw [hst] at hwoken
      cases hwoken

/-- A notify wakes whose slot it is, which has gone from the queue. -/
theorem inv_notify (h : Inv s) {x : T × Bool} (hg : guard kind s (.notify x : Action Op T)) :
    Inv (next P s (.notify x : Action Op T)) := by
  have hx : x ∈ s.moved := hg
  have hsub : ((s.moved.erase x).map Prod.fst).Sublist (s.moved.map Prod.fst) :=
    List.erase_sublist.map _
  have herased : Inv { s with moved := s.moved.erase x } :=
    { h with
      nodup := h.nodup.sublist ((List.Sublist.refl _).append hsub)
      moved := fun y hy => h.moved y (List.mem_of_mem_erase hy) }
  -- Nobody else's slot is the thread's.
  have hnot : x.1 ∉ s.queue.map Slot.owner ++ (s.moved.erase x).map Prod.fst := by
    have hperm : (s.queue.map Slot.owner ++ s.moved.map Prod.fst).Perm
        (x.1 :: (s.queue.map Slot.owner ++ (s.moved.erase x).map Prod.fst)) := by
      refine List.Perm.trans (List.Perm.append_left _ ((List.perm_cons_erase hx).map _)) ?_
      rw [List.map_cons]
      exact List.perm_middle
    exact (List.nodup_cons.mp (hperm.nodup_iff.mp h.nodup)).1
  unfold next
  dsimp only
  split
  next =>
    split
    next a hst =>
      have hold : ∀ u b, (Function.update s.stage x.1 (.woken a) u).holds = some b →
          (s.stage u).holds = some b := by
        intro u b hu
        by_cases hux : u = x.1
        · rw [hux, Function.update_self] at hu
          cases hu
        · rwa [Function.update_of_ne hux] at hu
      refine ⟨herased.nodup, fun e he => ?_, fun y hy => ?_, fun u b hu => ?_, fun u b hu => ?_,
        h.untouched⟩
      · have het : e.owner ≠ x.1 := by
          intro heq
          exact hnot (List.mem_append_left _ (heq ▸ List.mem_map_of_mem he))
        change (Function.update s.stage x.1 (.woken a) e.owner).waits = true
        rw [Function.update_of_ne het]
        exact h.queued e he
      · have hyx : y.1 ≠ x.1 := by
          intro heq
          exact hnot (List.mem_append_right _ (heq ▸ List.mem_map_of_mem hy))
        change ∃ b, Function.update s.stage x.1 (.woken a) y.1 = .parked b
        rw [Function.update_of_ne hyx]
        exact h.moved y (List.mem_of_mem_erase hy)
      · exact h.present u b (hold u b hu)
      · exact ⟨(h.alone u b (hold u b hu)).1, fun v c hv =>
          (h.alone u b (hold u b hu)).2 v c (hold v c hv)⟩
    next => exact herased
  next => exact herased

/-- Every step but a reset keeps the invariant. -/
theorem inv_next {act : Action Op T} (h : Inv s) (hg : guard kind s act) (hn : NoReset s act) :
    Inv (next P s act) := by
  cases act with
  | call t op places => exact inv_call h hg
  | publish t => exact inv_publish h
  | release t => exact inv_release h
  | notify x => exact inv_notify h hg
  | finish t => exact inv_finish h hg
  | reset t => exact hn.elim

/-- A reset comes after the wake, and so after the slot has gone. -/
theorem not_untouched {act : Action Op T} (h : Inv s) (hg : guard kind s act)
    (hr : ¬ NoReset s act) : ¬ Untouched (next P s act) := by
  -- Of all the steps only the reset writes a slot that is not there.
  cases act with
  | reset t =>
      cases hst : s.stage t with
      | woken a =>
          have hgone : ¬ Present s t a := by
            intro ⟨e, he, ho, _⟩
            have hwaits := h.queued e he
            rw [ho, hst] at hwaits
            cases hwaits
          intro hu
          unfold next at hu
          simp only [hst] at hu
          change (if Present s t a then s.late else t :: s.late) = [] at hu
          rw [if_neg hgone] at hu
          cases hu
      | out | pushed a | published a | parked a =>
          have hwoken := hg.2
          rw [hst] at hwoken
          cases hwoken
  | call t op places | publish t | release t | notify x | finish t => exact absurd trivial hr

theorem inv_init (hi : (system P kind d).init s) : Inv s := by
  obtain ⟨-, -, hq, hm, hst, hlate⟩ := hi
  refine ⟨?_, fun e he => ?_, fun x hx => ?_, fun t a ht => ?_, fun t a ht => ?_, hlate⟩
  · rw [hq, hm]
    exact List.nodup_nil
  · rw [hq] at he
    cases he
  · rw [hm] at hx
    cases hx
  · rw [hst t] at ht
    cases ht
  · rw [hst t] at ht
    cases ht

/-- For every primitive and whatever its threads wait in, a run is one in which no
    waiter touches a slot that was moved out exactly if no step of it resets one. -/
theorem untouched_iff (P : Primitive D Op) (kind : T → Kind) (d : D) (s : State D T)
    (as : List (Action Op T)) (hi : (system P kind d).init s) (hl : (system P kind d).Legal s as) :
    (system P kind d).Throughout Untouched s as ↔ (system P kind d).Along NoReset s as :=
  System.throughout_iff_along (system P kind d) (I := Inv) (fun _ hI => hI.untouched)
    (fun _ _ hI hg hn => inv_next hI hg hn) (fun _ _ hI hg hr => not_untouched hI hg hr) as s
    (inv_init hi) hl

/-- Only an `OsSuspendedThread` is reset. -/
theorem untouched_unless_os (P : Primitive D Op) (d : D) (hk : ∀ t, kind t ≠ .os)
    (as : List (Action Op T)) (hi : (system P kind d).init s)
    (hl : (system P kind d).Legal s as) : (system P kind d).Throughout Untouched s as := by
  rw [untouched_iff P kind d s as hi hl]
  refine System.along_of_inv (system P kind d) (I := fun _ => True) (C := fun _ _ => True)
    (fun s act _ hg => ?_) (fun _ _ _ _ _ => trivial) as s trivial hl
    (System.along_true _ s as)
  cases act with
  | reset t => exact hk t hg.1
  | call t op places | publish t | release t | notify x | finish t => trivial

end

/-- Nobody has used the primitive yet. -/
def start {D : Type*} (d : D) : State D ℕ where
  data := d
  spin := false
  queue := []
  moved := []
  stage _ := .out
  late := []

/-- Two ULTs lock a mutex, one after the other. -/
def handedOver : List (Action MutexOp ℕ) :=
  [.call 0 .lock [0], .call 1 .lock [0], .publish 1, .release 1, .call 0 .unlock [0, 1],
    .notify (1, true), .finish 1]

theorem untouched_handedOver :
    (system mutex (fun _ : ℕ => .ult) false).Throughout Untouched (start false) handedOver :=
  (untouched_iff mutex (fun _ => .ult) false (start false) handedOver
    ⟨rfl, rfl, rfl, rfl, fun _ => rfl, rfl⟩ (by decide +kernel)).mpr (by decide +kernel)

/-- Two OS threads do the same. -/
def resetAfter : List (Action MutexOp ℕ) :=
  [.call 0 .lock [0], .call 1 .lock [0], .publish 1, .release 1, .call 0 .unlock [0, 1],
    .notify (1, true), .reset 1]

/-- Two OS threads at a barrier for two: the leader is back, with its slot where that
    of the other was, before the other has reset it. -/
def resetAnother : List (Action Unit ℕ) :=
  [.call 0 () [0], .publish 0, .release 0, .call 1 () [0, 1], .notify (0, true), .call 1 () [0],
    .publish 1, .release 1, .reset 0, .call 0 () [0, 1], .notify (1, false)]

/-- The mutex's waiter resets a slot that is no longer in the queue. At the barrier
    the slot is another thread's by then, which is never woken. -/
theorem reset_clears :
    (system mutex (fun _ : ℕ => .os) false).Legal (start false) resetAfter ∧
      ¬ Untouched ((system mutex (fun _ : ℕ => .os) false).run (start false) resetAfter) ∧
      (system (barrier 2) (fun _ : ℕ => .os) 0).Legal (start 0) resetAnother ∧
      ((system (barrier 2) (fun _ : ℕ => .os) 0).run (start 0) resetAnother).stage 1 =
        .parked 0 ∧
      ((system (barrier 2) (fun _ : ℕ => .os) 0).run (start 0) resetAnother).queue = [] ∧
      ((system (barrier 2) (fun _ : ℕ => .os) 0).run (start 0) resetAnother).moved = [] := by
  refine ⟨by decide +kernel, ?_, by decide +kernel, by decide +kernel, by decide +kernel,
    by decide +kernel⟩
  exact of_decide_eq_false (p := ((system mutex (fun _ : ℕ => .os) false).run (start false)
    resetAfter).late = []) (by decide +kernel)

end Parking

end Cmpth

import Cmpth.Duty.Sleep

/-!
# Timers and the Clock

`Sleep` and `fire_timers` once more, this time with the clock and with each
operation on the flag and the waker of a slot as a step of its own. What a
`Sleep` sees of a timer that fires depends on their order.

A poll is named by its `Sleep` and its number, and so is the waker it brings.
Inside the sections under the lock of the queue, what only they look at is one
step with what follows: taking an entry from the heap and its slot from the
table goes with the store to the flag.

## Main definitions

* `State`, `Action`, `system`: Timers as a guarded transition system.
* `SleepPc.waits`: The slot of a `Sleep` that has been polled.
* `Told`: What becomes of a poll's waker when the timer fires.

## Theorems

* `SleepPc.id_of_waits`, `SleepPc.waits_of_rests`: What waits has a slot, and what rests waits.
* `SleepOk.congr`: A `Sleep` that does nothing, while nobody touches its slot.
* `FireOk.congr`: A thread that does nothing.
* `Planned.other`: The others leave the deadline to whoever is to lower it.
* `inv_own`: A step of one `Sleep`, which touches the slot `i` that no other has.
* `inv_quiet`: A step of one `Sleep`, which touches nothing that is shared.
* `others`: The other `Sleep`s are left alone.
* `SleepOk.away`: A `Sleep` that has not been polled, or is being dropped.
* `SleepOk.here`: A `Sleep` that has been polled.
* `inv_poll`: A poll begins.
* `inv_drop`: A `Sleep` is dropped.
* `inv_sleepStep`: The next step of a poll or of a drop.
* `inv_fire`: A step of the thread `t`.
* `told_move`: Whatever another thread does, it has what it has collected.
* `sleepOk_move`: A step of the thread that leaves the timers as they are.
* `planned_move`: A thread that has set the deadline again is not needed for the others.
* `inv_mark`: The thread marks a timer whose time has come.
* `inv_peek`: The thread is at the heap.
* `inv_take`: The thread takes the waker of the timer it has marked.
* `inv_fireStep`: The next step of the run of the timer duty.
* `inv_start`: `run` clears the deadline.
* `inv_next`: Every step keeps what is true of timers.
* `inv_init`, `inv_reachable`: The invariant holds in every state.
* `wakes_step`, `wakes_waking`, `wakes_looping`: What a thread has collected, it is going to wake.
* `Told.woken`: Whoever is told is woken.
* `observes_stored`: A poll that is to look again at a timer that has fired sees that it has.
* `observes_looked`: A poll that looks at a flag that is set sees it.
* `timers_timely`: No timer is lost, early or silent.
* `polledAgain_legal`, `polledAgain_quiet`, `timers_timely_polledAgain`: Two timers, of which one
  fires between two polls.
* `deadline_unset`: No deadline is set for a timer that is never due.
-/

namespace Cmpth

namespace Duty

namespace Timely

open Timers (before lowerTo)

/-- `TimerSlot`, with the poll whose waker it has. -/
structure TimerSlot (S : Type*) where
  fired : Bool
  waker : Option (S × Nat)
  deriving DecidableEq, Repr

/-- Where a `Sleep` is. -/
inductive SleepPc where
  /-- `slot` is `None`. -/
  | fresh
  /-- `poll` has an id; about to take the lock and to insert the slot. -/
  | taken (id : Nat)
  /-- `poll`, under the lock: about to lower the deadline. -/
  | inserted (id : Nat)
  /-- `poll`: about to replan and to return. -/
  | listed (id : Nat)
  | waiting (id : Nat)
  /-- `poll`: the timer has not fired; about to store the waker. -/
  | looked (id : Nat)
  /-- `poll`: about to look again. -/
  | stored (id : Nat)
  /-- `drop`: has taken the waker; about to remove the slot. -/
  | dropping (id : Nat)
  | dropped
  deriving DecidableEq, Repr

/-- Where a thread is in the run of the timer duty. -/
inductive FirePc (S : Type*) where
  | idle
  /-- The deadline is cleared; about to read the clock. -/
  | cleared
  /-- About to take the lock. -/
  | locking (now : Nat)
  /-- Under the lock, about to look at the heap. -/
  | looping (now : Nat) (woken : List (S × Nat))
  /-- The timer is marked; about to take its waker. -/
  | taking (now id : Nat) (woken : List (S × Nat))
  /-- The wakers that are still to be invoked. -/
  | waking (woken : List (S × Nat))
  deriving DecidableEq, Repr

/-- `polls` counts the polls of each `Sleep`, `ready` says that the last of
    them has returned `Ready`, and `woken` has the wakers that were invoked. -/
structure State (S T : Type*) where
  heap : List (Nat × Nat)
  slots : Nat → Bool
  slot : Nat → TimerSlot S
  seq : Nat
  deadline : Nat
  lock : Bool
  clock : Nat
  sleep : S → SleepPc
  fire : T → FirePc S
  polls : S → Nat
  ready : S → Bool
  woken : List (S × Nat)

/-- Time, the `Sleep`s and the threads that run the timer duty. -/
inductive Action (S T : Type*) where
  | tick
  /-- `poll`, up to the id, or to the first look at the flag. -/
  | poll (k : S)
  /-- The next step of a poll or of a drop. -/
  | step (k : S)
  /-- `drop` takes the waker. -/
  | drop (k : S)
  /-- `run` clears the deadline. -/
  | start (t : T)
  /-- The next step of the run. -/
  | fire (t : T)
  deriving DecidableEq, Repr

variable {S T : Type*}

/-- The slot of a `Sleep` that has been polled. -/
def SleepPc.waits : SleepPc → Option Nat
  | .inserted id | .listed id | .waiting id | .looked id | .stored id => some id
  | .fresh | .taken _ | .dropping _ | .dropped => none

/-- `Sleep::poll` is in progress. -/
def SleepPc.Polling : SleepPc → Prop
  | .taken _ | .inserted _ | .listed _ | .looked _ | .stored _ => True
  | .fresh | .waiting _ | .dropping _ | .dropped => False

/-- The operation has a next step. -/
def SleepPc.Steps : SleepPc → Prop
  | .taken _ | .inserted _ | .listed _ | .looked _ | .stored _ | .dropping _ => True
  | .fresh | .waiting _ | .dropped => False

/-- The operation waits for the lock. -/
def SleepPc.Locks : SleepPc → Prop
  | .taken _ | .dropping _ => True
  | .fresh | .inserted _ | .listed _ | .waiting _ | .looked _ | .stored _ | .dropped => False

instance : DecidablePred SleepPc.Steps
  | .taken _ | .inserted _ | .listed _ | .looked _ | .stored _ | .dropping _ => isTrue trivial
  | .fresh | .waiting _ | .dropped => isFalse id

instance : DecidablePred SleepPc.Polling
  | .taken _ | .inserted _ | .listed _ | .looked _ | .stored _ => isTrue trivial
  | .fresh | .waiting _ | .dropping _ | .dropped => isFalse id

instance : DecidablePred SleepPc.Locks
  | .taken _ | .dropping _ => isTrue trivial
  | .fresh | .inserted _ | .listed _ | .waiting _ | .looked _ | .stored _ | .dropped => isFalse id

/-- The wakers the thread has collected and not invoked. -/
def FirePc.collected : FirePc S → List (S × Nat)
  | .looping _ woken | .taking _ _ woken | .waking woken => woken
  | .idle | .cleared | .locking _ => []

section

variable [DecidableEq S] [DecidableEq T]

/-- Put a `Sleep` in another place. -/
def State.setSleep (s : State S T) (k : S) (pc : SleepPc) : State S T :=
  { s with sleep := Function.update s.sleep k pc }

/-- Put a thread in another place. -/
def State.setFire (s : State S T) (t : T) (pc : FirePc S) : State S T :=
  { s with fire := Function.update s.fire t pc }

/-- A poll returns. -/
def State.answer (s : State S T) (k : S) (pc : SleepPc) (ready : Bool) : State S T :=
  { s.setSleep k pc with ready := Function.update s.ready k ready }

/-- `time` is the `at` of each `Sleep`. -/
def State.poll (time : S → Nat) (s : State S T) (k : S) : State S T :=
  let s' := { s with polls := Function.update s.polls k (s.polls k + 1) }
  match s.sleep k with
  | .fresh =>
      if s.clock ≥ time k then s'.answer k .fresh true
      else { s'.answer k (.taken s.seq) false with seq := s.seq + 1 }
  | .waiting id =>
      if (s.slot id).fired = true then s'.answer k (.waiting id) true
      else s'.answer k (.looked id) false
  | _ => s

/-- The next step of a poll or of a drop. -/
def State.sleepStep (time : S → Nat) (s : State S T) (k : S) : State S T :=
  match s.sleep k with
  | .taken id =>
      { s.setSleep k (.inserted id) with
        lock := true
        heap := s.heap.orderedInsert before (time k, id)
        slots := Function.update s.slots id true
        slot := Function.update s.slot id
          { fired := false
            waker := some (k, s.polls k) } }
  | .inserted id =>
      { s.setSleep k (.listed id) with
        lock := false
        deadline := min s.deadline (time k) }
  | .listed id => s.setSleep k (.waiting id)
  | .looked id =>
      { s.setSleep k (.stored id) with
        slot := Function.update s.slot id { s.slot id with waker := some (k, s.polls k) } }
  | .stored id => s.answer k (.waiting id) (s.slot id).fired
  | .dropping id =>
      { s.setSleep k .dropped with slots := Function.update s.slots id false }
  | .fresh | .waiting _ | .dropped => s

/-- `drop` takes the waker out of the slot, if there is one. -/
def State.drop (s : State S T) (k : S) : State S T :=
  match s.sleep k with
  | .waiting id =>
      { s.setSleep k (.dropping id) with
        slot := Function.update s.slot id { s.slot id with waker := none } }
  | _ => s.setSleep k .dropped

/-- `fire_timers` takes the first entry of the heap, and its slot, and marks the
    timer as fired. -/
def State.mark (s : State S T) (t : T) (now id : Nat) (woken : List (S × Nat))
    (heap : List (Nat × Nat)) : State S T :=
  { s.setFire t (.taking now id woken) with
    heap := heap
    slots := Function.update s.slots id false
    slot := Function.update s.slot id { s.slot id with fired := true } }

/-- `fire_timers` at the heap: the next timer whose time has come, or the end
    of the section. -/
def State.peek (s : State S T) (t : T) (now : Nat) (woken : List (S × Nat)) : State S T :=
  match s.heap with
  | [] => { s.setFire t (.waking woken) with lock := false }
  | (time, id) :: heap =>
      if time > now then
        { s.setFire t (.waking woken) with
          lock := false
          deadline := min s.deadline time }
      else if s.slots id = true then s.mark t now id woken heap
      else { s.setFire t (.looping now woken) with heap := heap }

/-- The next step of the run of the timer duty. -/
def State.fireStep (s : State S T) (t : T) : State S T :=
  match s.fire t with
  | .idle => s
  | .cleared => s.setFire t (.locking s.clock)
  | .locking now => { s.setFire t (.looping now []) with lock := true }
  | .looping now woken => s.peek t now woken
  | .taking now id woken =>
      { s.setFire t (.looping now (woken ++ (s.slot id).waker.toList)) with
        slot := Function.update s.slot id { s.slot id with waker := none } }
  | .waking [] => s.setFire t .idle
  | .waking (w :: woken) => { s.setFire t (.waking woken) with woken := w :: s.woken }

/-- When an action can be taken: who takes it is there, and the lock is free if it takes that. -/
def guard (s : State S T) : Action S T → Prop
  | .tick => True
  | .poll k | .drop k => s.sleep k = .fresh ∨ ∃ id, s.sleep k = .waiting id
  | .step k => (s.sleep k).Steps ∧ ((s.sleep k).Locks → s.lock = false)
  | .start t => s.fire t = .idle
  | .fire t => s.fire t ≠ .idle ∧ ((∃ now, s.fire t = .locking now) → s.lock = false)

instance (pc : SleepPc) : Decidable (∃ id, pc = .waiting id) :=
  match pc with
  | .waiting id => isTrue ⟨id, rfl⟩
  | .fresh | .taken _ | .inserted _ | .listed _ | .looked _ | .stored _ | .dropping _
  | .dropped => isFalse fun ⟨_, h⟩ => nomatch h

instance (pc : FirePc S) : Decidable (∃ now, pc = .locking now) :=
  match pc with
  | .locking now => isTrue ⟨now, rfl⟩
  | .idle | .cleared | .looping .. | .taking .. | .waking _ => isFalse fun ⟨_, h⟩ => nomatch h

instance (s : State S T) : ∀ a, Decidable (guard s a)
  | .tick => isTrue trivial
  | .poll _ | .drop _ => inferInstanceAs (Decidable (_ ∨ _))
  | .step _ | .fire _ => inferInstanceAs (Decidable (_ ∧ _))
  | .start t => inferInstanceAs (Decidable (s.fire t = .idle))

/-- What an action does. -/
def next (time : S → Nat) (s : State S T) : Action S T → State S T
  | .tick => { s with clock := s.clock + 1 }
  | .poll k => s.poll time k
  | .step k => s.sleepStep time k
  | .drop k => s.drop k
  | .start t => { s.setFire t .cleared with deadline := NEVER }
  | .fire t => s.fireStep t

/-- Nobody sleeps yet. -/
def init (s : State S T) : Prop :=
  s.heap = [] ∧ (∀ id, s.slots id = false) ∧ s.seq = 0 ∧ s.deadline = NEVER ∧
    (∀ k, s.sleep k = .fresh ∧ s.ready k = false) ∧ ∀ t, s.fire t = .idle

/-- Timers as a guarded transition system. -/
def system (time : S → Nat) : System (State S T) (Action S T) where
  init := init
  guard := guard
  next := next time

instance (time : S → Nat) (s : State S T) (a : Action S T) :
    Decidable ((system time).guard s a) :=
  inferInstanceAs (Decidable (guard s a))

end

/-- The slot of a `Sleep`. -/
def SleepPc.id : SleepPc → Option Nat
  | .taken id | .inserted id | .listed id | .waiting id | .looked id | .stored id
  | .dropping id => some id
  | .fresh | .dropped => none

/-- The slot of a `Sleep` whose last poll has stored its waker for good. -/
def SleepPc.rests : SleepPc → Option Nat
  | .inserted id | .listed id | .waiting id => some id
  | .fresh | .taken _ | .looked _ | .stored _ | .dropping _ | .dropped => none

/-- The time the thread has read. -/
def FirePc.now : FirePc S → Option Nat
  | .locking now | .looping now _ | .taking now _ _ => some now
  | .idle | .cleared | .waking _ => none

/-- The deadline is cleared, and not yet set again. -/
def FirePc.Clears : FirePc S → Prop
  | .cleared | .locking _ | .looping _ _ | .taking _ _ _ => True
  | .idle | .waking _ => False

/-- The waker was invoked, or a thread has it or is about to take it from the
    slot. -/
def Told (s : State S T) (id : Nat) (w : S × Nat) : Prop :=
  w ∈ s.woken ∨ (∃ t, w ∈ (s.fire t).collected) ∨
    (s.slot id).waker = some w ∧ ∃ t now ws, s.fire t = .taking now id ws

/-- What is true of a `Sleep`. -/
structure SleepOk (time : S → Nat) (s : State S T) (k : S) : Prop where
  lt : ∀ id, (s.sleep k).id = some id → id < s.seq
  taken : ∀ id, s.sleep k = .taken id → s.slots id = false
  listed : ∀ id, (s.sleep k).waits = some id → (s.slot id).fired = false →
    s.slots id = true ∧ (time k, id) ∈ s.heap
  registered : ∀ id, (s.sleep k).waits = some id → s.sleep k ≠ .looked id →
    (s.slot id).fired = false → (s.slot id).waker = some (k, s.polls k)
  early : ∀ id, (s.sleep k).waits = some id → (s.slot id).fired = true → time k ≤ s.clock
  ready : s.ready k = true → time k ≤ s.clock
  told : ∀ id, (s.sleep k).rests = some id → (s.slot id).fired = true →
    s.ready k = true ∨ Told s id (k, s.polls k)

/-- What is true of a thread that runs the timer duty. -/
structure FireOk (s : State S T) (t : T) : Prop where
  clock : ∀ now, (s.fire t).now = some now → now ≤ s.clock
  taking : ∀ now id ws, s.fire t = .taking now id ws →
    (s.slot id).fired = true ∧ id < s.seq ∧ ∀ k, s.sleep k ≠ .taken id

/-- The deadline is early enough for an entry of the heap, or is about to be
    lowered for it. -/
def Planned (time : S → Nat) (s : State S T) (x : Nat × Nat) : Prop :=
  s.deadline ≤ x.1 ∨ (∃ k, s.sleep k = .inserted x.2 ∧ x.1 = time k) ∨ ∃ t, (s.fire t).Clears

/-- What every step keeps. -/
structure Inv (time : S → Nat) (s : State S T) : Prop where
  sleep : ∀ k, SleepOk time s k
  fire : ∀ t, FireOk s t
  inj : ∀ k k' id, (s.sleep k).id = some id → (s.sleep k').id = some id → k = k'
  heap : ∀ x ∈ s.heap, x.2 < s.seq ∧ ∀ k, (s.sleep k).id = some x.2 → x.1 = time k
  sorted : s.heap.Pairwise before
  slots : ∀ id, s.slots id = true → id < s.seq
  planned : ∀ x ∈ s.heap, Planned time s x

theorem SleepPc.id_of_waits {pc : SleepPc} {id : Nat} (h : pc.waits = some id) :
    pc.id = some id := by
  cases pc <;> first | exact h | cases h

theorem SleepPc.waits_of_rests {pc : SleepPc} {id : Nat} (h : pc.rests = some id) :
    pc.waits = some id := by
  cases pc <;> first | exact h | cases h

section

variable {time : S → Nat} {s s' : State S T} {k : S} {t : T}

/-- A `Sleep` that does nothing, while nobody touches its slot. -/
theorem SleepOk.congr (h : SleepOk time s k) (hsleep : s'.sleep k = s.sleep k)
    (hready : s'.ready k = s.ready k) (hpolls : s'.polls k = s.polls k) (hseq : s.seq ≤ s'.seq)
    (hclock : s.clock ≤ s'.clock)
    (hslots : ∀ id, (s.sleep k).id = some id → s'.slots id = s.slots id)
    (hslot : ∀ id, (s.sleep k).id = some id → s'.slot id = s.slot id)
    (hheap : ∀ id, (s.sleep k).id = some id → s.slots id = true → (time k, id) ∈ s.heap →
      (time k, id) ∈ s'.heap)
    (htold : ∀ id w, (s.sleep k).id = some id → Told s id w → Told s' id w) :
    SleepOk time s' k := by
  -- Each field reads the place, the flag and the slot of `k`, none of which has changed.
  refine ⟨fun id hid => ?_, fun id hid => ?_, fun id hid hf => ?_, fun id hid hne hf => ?_,
    fun id hid hf => ?_, fun hr => ?_, fun id hid hf => ?_⟩
  · rw [hsleep] at hid
    exact Nat.lt_of_lt_of_le (h.lt id hid) hseq
  · rw [hsleep] at hid
    rw [hslots id (by rw [hid]; rfl)]
    exact h.taken id hid
  · rw [hsleep] at hid
    have hown := SleepPc.id_of_waits hid
    rw [hslot id hown] at hf
    rcases h.listed id hid hf with ⟨hs, hm⟩
    exact ⟨by rw [hslots id hown]; exact hs, hheap id hown hs hm⟩
  · rw [hsleep] at hid hne
    have hown := SleepPc.id_of_waits hid
    rw [hslot id hown] at hf ⊢
    rw [hpolls]
    exact h.registered id hid hne hf
  · rw [hsleep] at hid
    rw [hslot id (SleepPc.id_of_waits hid)] at hf
    exact Nat.le_trans (h.early id hid hf) hclock
  · rw [hready] at hr
    exact Nat.le_trans (h.ready hr) hclock
  · rw [hsleep] at hid
    have hown := SleepPc.id_of_waits (SleepPc.waits_of_rests hid)
    rw [hslot id hown] at hf
    rw [hready, hpolls]
    exact (h.told id hid hf).imp_right (htold id _ hown)

theorem FireOk.congr (h : FireOk s t) (hfire : s'.fire t = s.fire t) (hseq : s.seq ≤ s'.seq)
    (hclock : s.clock ≤ s'.clock)
    (hfired : ∀ id, (s.slot id).fired = true → id < s.seq → (∀ k, s.sleep k ≠ .taken id) →
      (s'.slot id).fired = true ∧ ∀ k, s'.sleep k ≠ .taken id) : FireOk s' t := by
  refine ⟨fun now hnow => ?_, fun now id ws hid => ?_⟩
  · rw [hfire] at hnow
    exact Nat.le_trans (h.clock now hnow) hclock
  · rw [hfire] at hid
    rcases h.taking now id ws hid with ⟨hf, hlt, hk⟩
    exact ⟨(hfired id hf hlt hk).1, Nat.lt_of_lt_of_le hlt hseq, (hfired id hf hlt hk).2⟩

/-- The others leave the deadline to whoever is to lower it. -/
theorem Planned.other {x : Nat × Nat} (h : Planned time s x)
    (hother : ∀ k', k' ≠ k → s'.sleep k' = s.sleep k') (hins : ∀ id, s.sleep k ≠ .inserted id)
    (hdeadline : s'.deadline = s.deadline) (hfire : s'.fire = s.fire) : Planned time s' x := by
  unfold Planned
  rw [hdeadline, hfire]
  refine h.imp_right (Or.imp_left ?_)
  rintro ⟨k', hk', htime⟩
  have hkk : k' ≠ k := by
    rintro rfl
    exact hins _ hk'
  exact ⟨k', by rw [hother k' hkk]; exact hk', htime⟩

/-- A step of one `Sleep`, which touches the slot `i` that no other has. -/
theorem inv_own (h : Inv time s) {i : Nat} (hk : SleepOk time s' k)
    (hother : ∀ k', k' ≠ k →
      s'.sleep k' = s.sleep k' ∧ s'.ready k' = s.ready k' ∧ s'.polls k' = s.polls k')
    (hi : ∀ k', k' ≠ k → (s.sleep k').id ≠ some i)
    (hown : ∀ id, (s'.sleep k).id = some id → id = i) (hfire : s'.fire = s.fire)
    (hwoken : s'.woken = s.woken) (hclock : s'.clock = s.clock) (hseq : s.seq ≤ s'.seq)
    (hslots : ∀ id, id ≠ i → s'.slots id = s.slots id)
    (hslot : ∀ id, id ≠ i → s'.slot id = s.slot id) (hlt : i < s'.seq)
    (htaking : ∀ t now ws, s.fire t = .taking now i ws →
      (s'.slot i).fired = true ∧ s'.sleep k ≠ .taken i)
    (hheap : ∀ x ∈ s.heap, x ∈ s'.heap) (hsorted : s'.heap.Pairwise before)
    (hmem : ∀ x ∈ s'.heap, x.2 = i → x.1 = time k) (hnew : ∀ x ∈ s'.heap, x.2 ≠ i → x ∈ s.heap)
    (hplanned : ∀ x ∈ s'.heap, Planned time s' x) : Inv time s' := by
  -- No other `Sleep` has the slot `i`.
  have hne : ∀ {k' id}, k' ≠ k → (s.sleep k').id = some id → id ≠ i := by
    rintro k' id hk' hid rfl
    exact hi k' hk' hid
  refine ⟨fun k' => ?_, fun t => ?_, fun k₁ k₂ id h₁ h₂ => ?_, fun x hx => ?_, hsorted,
    fun id hx => ?_, hplanned⟩
  · by_cases hk' : k' = k
    · rw [hk']
      exact hk
    · rcases hother k' hk' with ⟨hs, hr, hp⟩
      refine (h.sleep k').congr hs hr hp hseq (Nat.le_of_eq hclock.symm)
        (fun id hid => hslots id (hne hk' hid)) (fun id hid => hslot id (hne hk' hid))
        (fun id _ _ hm => hheap _ hm) fun id w hid ht => ?_
      unfold Told
      rw [hwoken, hfire, hslot id (hne hk' hid)]
      exact ht
  · -- The timer that a thread has marked is `i`, or is as before.
    refine ⟨fun now hnow => ?_, fun now id ws hid => ?_⟩
    · rw [hfire] at hnow
      rw [hclock]
      exact (h.fire t).clock now hnow
    · rw [hfire] at hid
      rcases (h.fire t).taking now id ws hid with ⟨hf, hlt', htaken⟩
      by_cases hix : id = i
      · subst hix
        rcases htaking t now ws hid with ⟨hf', hk'⟩
        refine ⟨hf', hlt, fun k' => ?_⟩
        by_cases hkk : k' = k
        · rw [hkk]
          exact hk'
        · rw [(hother k' hkk).1]
          exact htaken k'
      · refine ⟨by rw [hslot id hix]; exact hf, Nat.lt_of_lt_of_le hlt' hseq, fun k' => ?_⟩
        by_cases hkk : k' = k
        · rw [hkk]
          intro hx
          exact hix (hown id (by rw [hx]; rfl))
        · rw [(hother k' hkk).1]
          exact htaken k'
  · -- Two `Sleep`s with one slot are the same, also when one of them is `k`.
    by_cases hk₁ : k₁ = k <;> by_cases hk₂ : k₂ = k
    · rw [hk₁, hk₂]
    · rw [hk₁] at h₁
      rw [(hother k₂ hk₂).1, hown id h₁] at h₂
      exact absurd h₂ (hi k₂ hk₂)
    · rw [hk₂] at h₂
      rw [(hother k₁ hk₁).1, hown id h₂] at h₁
      exact absurd h₁ (hi k₁ hk₁)
    · rw [(hother k₁ hk₁).1] at h₁
      rw [(hother k₂ hk₂).1] at h₂
      exact h.inj k₁ k₂ id h₁ h₂
  · by_cases hix : x.2 = i
    · refine ⟨by rw [hix]; exact hlt, fun k' hk' => ?_⟩
      by_cases hkk : k' = k
      · rw [hkk]
        exact hmem x hx hix
      · rw [(hother k' hkk).1, hix] at hk'
        exact absurd hk' (hi k' hkk)
    · rcases h.heap x (hnew x hx hix) with ⟨hlt', htime⟩
      refine ⟨Nat.lt_of_lt_of_le hlt' hseq, fun k' hk' => ?_⟩
      by_cases hkk : k' = k
      · rw [hkk] at hk'
        exact absurd (hown _ hk') hix
      · rw [(hother k' hkk).1] at hk'
        exact htime k' hk'
  · by_cases hix : id = i
    · rw [hix]
      exact hlt
    · rw [hslots id hix] at hx
      exact Nat.lt_of_lt_of_le (h.slots id hx) hseq

/-- A step of one `Sleep`, which touches nothing that is shared. -/
theorem inv_quiet (h : Inv time s) (hk : SleepOk time s' k)
    (hother : ∀ k', k' ≠ k →
      s'.sleep k' = s.sleep k' ∧ s'.ready k' = s.ready k' ∧ s'.polls k' = s.polls k')
    (hown : ∀ id, (s'.sleep k).id = some id → (s.sleep k).id = some id)
    (htaken : ∀ id, s'.sleep k ≠ .taken id) (hins : ∀ id, s.sleep k ≠ .inserted id)
    (hslots : s'.slots = s.slots) (hslot : s'.slot = s.slot) (hheap : s'.heap = s.heap)
    (hfire : s'.fire = s.fire) (hwoken : s'.woken = s.woken) (hclock : s'.clock = s.clock)
    (hseq : s'.seq = s.seq) (hdeadline : s'.deadline = s.deadline) : Inv time s' := by
  -- A slot that is held after the step was held before.
  have hback : ∀ k' id, (s'.sleep k').id = some id → (s.sleep k').id = some id := by
    intro k' id hid
    by_cases hkk : k' = k
    · rw [hkk] at hid ⊢
      exact hown id hid
    · rwa [(hother k' hkk).1] at hid
  refine ⟨fun k' => ?_, fun t => ?_, fun k₁ k₂ id h₁ h₂ => ?_, fun x hx => ?_, ?_, fun id hx => ?_,
    fun x hx => ?_⟩
  · by_cases hkk : k' = k
    · rw [hkk]
      exact hk
    · rcases hother k' hkk with ⟨hs, hr, hp⟩
      refine (h.sleep k').congr hs hr hp (Nat.le_of_eq hseq.symm) (Nat.le_of_eq hclock.symm)
        (fun _ _ => by rw [hslots]) (fun _ _ => by rw [hslot]) (fun _ _ _ hm => by rwa [hheap])
        fun id w _ ht => ?_
      unfold Told
      rw [hwoken, hfire, hslot]
      exact ht
  · refine (h.fire t).congr (by rw [hfire]) (Nat.le_of_eq hseq.symm) (Nat.le_of_eq hclock.symm)
      fun id hf _ hnot => ⟨by rw [hslot]; exact hf, fun k' => ?_⟩
    by_cases hkk : k' = k
    · rw [hkk]
      exact htaken id
    · rw [(hother k' hkk).1]
      exact hnot k'
  · exact h.inj k₁ k₂ id (hback k₁ id h₁) (hback k₂ id h₂)
  · rw [hheap] at hx
    rw [hseq]
    exact ⟨(h.heap x hx).1, fun k' hk' => (h.heap x hx).2 k' (hback k' _ hk')⟩
  · rw [hheap]
    exact h.sorted
  · rw [hslots] at hx
    rw [hseq]
    exact h.slots id hx
  · rw [hheap] at hx
    exact (h.planned x hx).other (fun k' hk' => (hother k' hk').1) hins hdeadline hfire

end

section

variable [DecidableEq S] {time : S → Nat} {s : State S T} {k : S} {pc : SleepPc} {b : Bool}

theorem others (s : State S T) (k : S) (pc : SleepPc) (k' : S) (h : k' ≠ k) :
    (s.setSleep k pc).sleep k' = s.sleep k' ∧ (s.setSleep k pc).ready k' = s.ready k' ∧
      (s.setSleep k pc).polls k' = s.polls k' :=
  ⟨Function.update_of_ne h .., rfl, rfl⟩

omit [DecidableEq S] in
/-- A `Sleep` that has not been polled, or is being dropped. -/
theorem SleepOk.away (hwaits : (s.sleep k).waits = none)
    (hlt : ∀ id, (s.sleep k).id = some id → id < s.seq)
    (htaken : ∀ id, s.sleep k = .taken id → s.slots id = false)
    (hready : s.ready k = true → time k ≤ s.clock) : SleepOk time s k := by
  have hnot : ∀ id, (s.sleep k).waits ≠ some id := fun id hid => by
    rw [hwaits] at hid
    cases hid
  exact ⟨hlt, htaken, fun id hid => absurd hid (hnot id), fun id hid => absurd hid (hnot id),
    fun id hid => absurd hid (hnot id), hready,
    fun id hid => absurd (SleepPc.waits_of_rests hid) (hnot id)⟩

omit [DecidableEq S] in
/-- A `Sleep` that has been polled. -/
theorem SleepOk.here {id : Nat} (hs : s.sleep k = pc) (hw : pc.waits = some id)
    (hlt : id < s.seq)
    (hlisted : (s.slot id).fired = false → s.slots id = true ∧ (time k, id) ∈ s.heap)
    (hregistered : pc ≠ .looked id → (s.slot id).fired = false →
      (s.slot id).waker = some (k, s.polls k))
    (hearly : (s.slot id).fired = true → time k ≤ s.clock)
    (hready : s.ready k = true → time k ≤ s.clock)
    (htold : pc.rests = some id → (s.slot id).fired = true →
      s.ready k = true ∨ Told s id (k, s.polls k)) : SleepOk time s k := by
  subst hs
  -- A `Sleep` that waits has this id and no other.
  have hid : ∀ id', (s.sleep k).waits = some id' → id' = id := fun id' h =>
    Option.some.inj (h.symm.trans hw)
  refine ⟨fun id' h => ?_, fun id' h => ?_, fun id' h => ?_, fun id' h => ?_, fun id' h => ?_,
    hready, fun id' h => ?_⟩
  · rw [SleepPc.id_of_waits hw] at h
    cases h
    exact hlt
  · rw [h] at hw
    cases hw
  · rw [hid id' h]
    exact hlisted
  · rw [hid id' h]
    exact hregistered
  · rw [hid id' h]
    exact hearly
  · have hx := hid id' (SleepPc.waits_of_rests h)
    rw [hx] at h ⊢
    exact htold h

/-- A poll begins. -/
theorem inv_poll (h : Inv time s) (hg : s.sleep k = .fresh ∨ ∃ id, s.sleep k = .waiting id) :
    Inv time (s.poll time k) := by
  have hok := h.sleep k
  have hother : ∀ pc b k', k' ≠ k →
      Function.update s.sleep k pc k' = s.sleep k' ∧
        Function.update s.ready k b k' = s.ready k' ∧
        Function.update s.polls k (s.polls k + 1) k' = s.polls k' := fun pc b k' hk' =>
    ⟨Function.update_of_ne hk' .., Function.update_of_ne hk' .., Function.update_of_ne hk' ..⟩
  have hself : ∀ pc : SleepPc, Function.update s.sleep k pc k = pc := fun pc =>
    Function.update_self ..
  have hflag : ∀ b, Function.update s.ready k b k = b := fun b => Function.update_self ..
  unfold State.poll
  dsimp only
  rcases hg with hk | ⟨id, hk⟩
  · rw [hk]
    dsimp only
    -- A fresh `Sleep` is ready at once, or it lists its deadline under an id that nobody has.
    split
    · next hready =>
        -- The time has come before the `Sleep` has a slot.
        refine inv_quiet h (.away ?_ ?_ ?_ fun _ => hready) (hother _ _) ?_ ?_ ?_
          rfl rfl rfl rfl rfl rfl rfl rfl
        · exact congrArg SleepPc.waits (hself _)
        · exact fun id hid => nomatch (congrArg SleepPc.id (hself .fresh)).symm.trans hid
        · exact fun id hid => nomatch (hself .fresh).symm.trans hid
        · exact fun id hid => nomatch (congrArg SleepPc.id (hself .fresh)).symm.trans hid
        · exact fun id hid => nomatch (hself .fresh).symm.trans hid
        · exact fun id hid => nomatch hk.symm.trans hid
    · -- The id is the next one: no slot, no entry of the heap and no other `Sleep` has it.
      have hfresh : s.slots s.seq = false := by
        by_contra hx
        exact Nat.lt_irrefl _ (h.slots s.seq (by simpa using hx))
      have hnew : ∀ x ∈ s.heap, x.2 ≠ s.seq := fun x hx => Nat.ne_of_lt (h.heap x hx).1
      refine inv_own h (i := s.seq) (.away ?_ ?_ ?_ ?_) (hother _ _) ?_ ?_ rfl rfl rfl
        (Nat.le_succ _) (fun _ _ => rfl) (fun _ _ => rfl) (Nat.lt_succ_self _) ?_ (fun _ => id)
        h.sorted (fun x hx hi => absurd hi (hnew x hx)) (fun _ hx _ => hx) ?_
      · exact congrArg SleepPc.waits (hself _)
      · intro id hid
        have hid : (SleepPc.taken s.seq).id = some id := by rw [← hid]; exact
          (congrArg SleepPc.id (hself _)).symm
        cases hid
        exact Nat.lt_succ_self _
      · intro id hid
        have hid : SleepPc.taken s.seq = .taken id := (hself _).symm.trans hid
        cases hid
        exact hfresh
      · exact fun hx => nomatch (hflag false).symm.trans hx
      · exact fun k' _ hid => Nat.lt_irrefl _ ((h.sleep k').lt _ hid)
      · intro id hid
        have hid : (SleepPc.taken s.seq).id = some id :=
          (congrArg SleepPc.id (hself _)).symm.trans hid
        cases hid
        rfl
      · exact fun t now ws hid => absurd ((h.fire t).taking now _ ws hid).2.1 (Nat.lt_irrefl _)
      · intro x hx
        exact (h.planned x hx).other (fun k' hk' => (hother _ false k' hk').1)
          (fun id hid => nomatch hk.symm.trans hid) rfl rfl
  · rw [hk]
    dsimp only
    -- A `Sleep` that waits keeps its id, and looks whether it was fired.
    have hwaits : (s.sleep k).waits = some id := by rw [hk]; rfl
    have hown : ∀ id', some id = some id' → (s.sleep k).id = some id' := fun id' hid => by
      rw [hk, ← hid]
      rfl
    split
    · next hfired =>
        -- The poll sees that the timer has fired.
        refine inv_quiet h (.here (hself _) rfl (hok.lt id (by rw [hk]; rfl)) (hok.listed id hwaits)
          (fun _ hf => ?_) (hok.early id hwaits) (fun _ => hok.early id hwaits hfired)
          fun _ _ => .inl (hflag true)) (hother _ _) ?_ ?_ ?_ rfl rfl rfl rfl rfl rfl rfl rfl
        · exact nomatch hfired.symm.trans hf
        · exact fun id' hid => hown id' ((congrArg SleepPc.id (hself (.waiting id))).symm.trans hid)
        · exact fun id' hid => nomatch (hself (.waiting id)).symm.trans hid
        · exact fun id' hid => nomatch hk.symm.trans hid
    · refine inv_quiet h (.here (hself _) rfl (hok.lt id (by rw [hk]; rfl)) (hok.listed id hwaits)
        (fun hx => absurd rfl hx) (hok.early id hwaits) (fun hx => ?_) nofun) (hother _ _) ?_ ?_ ?_
        rfl rfl rfl rfl rfl rfl rfl rfl
      · exact nomatch (hflag false).symm.trans hx
      · exact fun id' hid => hown id' ((congrArg SleepPc.id (hself (.looked id))).symm.trans hid)
      · exact fun id' hid => nomatch (hself (.looked id)).symm.trans hid
      · exact fun id' hid => nomatch hk.symm.trans hid

/-- A `Sleep` is dropped. -/
theorem inv_drop (h : Inv time s) (hg : s.sleep k = .fresh ∨ ∃ id, s.sleep k = .waiting id) :
    Inv time (s.drop k) := by
  have hok := h.sleep k
  have hself : ∀ pc : SleepPc, Function.update s.sleep k pc k = pc := fun pc =>
    Function.update_self ..
  unfold State.drop
  -- A `Sleep` that was never polled has no slot; one that waits gives up the waker in its own.
  rcases hg with hk | ⟨id, hk⟩
  · rw [hk]
    refine inv_quiet h (.away ?_ ?_ ?_ hok.ready) (others s k _) ?_ ?_ ?_
      rfl rfl rfl rfl rfl rfl rfl rfl
    · exact congrArg SleepPc.waits (hself _)
    · exact fun id hid => nomatch (congrArg SleepPc.id (hself .dropped)).symm.trans hid
    · exact fun id hid => nomatch (hself .dropped).symm.trans hid
    · exact fun id hid => nomatch (congrArg SleepPc.id (hself .dropped)).symm.trans hid
    · exact fun id hid => nomatch (hself .dropped).symm.trans hid
    · exact fun id hid => nomatch hk.symm.trans hid
  · rw [hk]
    have hid : (s.sleep k).id = some id := by rw [hk]; rfl
    refine inv_own h (i := id) (.away ?_ ?_ ?_ hok.ready) (others s k _)
      (fun k' hk' hx => hk' (h.inj k' k id hx hid)) ?_ rfl rfl rfl (Nat.le_refl _)
      (fun _ _ => rfl) (fun _ hx => Function.update_of_ne hx ..) (hok.lt id hid) ?_ (fun _ hx => hx)
      h.sorted (fun x hx hi => (h.heap x hx).2 k (by rw [hi]; exact hid)) (fun _ hx _ => hx) ?_
    · exact congrArg SleepPc.waits (hself _)
    · intro id' hid'
      have hx : (SleepPc.dropping id).id = some id' :=
        (congrArg SleepPc.id (hself _)).symm.trans hid'
      cases hx
      exact hok.lt id hid
    · exact fun id' hid' => nomatch (hself (.dropping id)).symm.trans hid'
    · intro id' hid'
      have hx : (SleepPc.dropping id).id = some id' :=
        (congrArg SleepPc.id (hself _)).symm.trans hid'
      cases hx
      rfl
    · refine fun t now ws ht => ⟨?_, fun hx => nomatch (hself (.dropping id)).symm.trans hx⟩
      change (Function.update s.slot id _ id).fired = true
      rw [Function.update_self]
      exact ((h.fire t).taking now id ws ht).1
    · intro x hx
      exact (h.planned x hx).other (fun k' hk' => (others s k _ k' hk').1)
        (fun id hid => nomatch hk.symm.trans hid) rfl rfl

instance : Std.Total before where
  total x y := by
    unfold before
    omega

instance : IsTrans (Nat × Nat) before where
  trans x y z hxy hyz := by
    unfold before at hxy hyz ⊢
    omega

/-- The next step of a poll or of a drop. -/
theorem inv_sleepStep (h : Inv time s) (hg : (s.sleep k).Steps) :
    Inv time (s.sleepStep time k) := by
  have hok := h.sleep k
  have hself : ∀ pc : SleepPc, Function.update s.sleep k pc k = pc := fun pc =>
    Function.update_self ..
  have hpc : ∀ {pc : SleepPc} {id : Nat}, (Function.update s.sleep k pc k).id = some id →
      pc.id = some id := fun hid => (congrArg SleepPc.id (hself _)).symm.trans hid
  -- The slot of this `Sleep` is no other's.
  have hi : ∀ {id k'}, (s.sleep k).id = some id → k' ≠ k → (s.sleep k').id ≠ some id :=
    fun hid hk' hx => hk' (h.inj _ _ _ hx hid)
  unfold State.sleepStep
  -- The accesses of a poll in their order, and those of a drop.
  cases hk : s.sleep k with
  | fresh | waiting | dropped =>
      rw [hk] at hg
      exact hg.elim
  | taken id =>
      have hid : (s.sleep k).id = some id := by rw [hk]; rfl
      have hslot : Function.update s.slot id (⟨false, some (k, s.polls k)⟩ : TimerSlot S) id =
          ⟨false, some (k, s.polls k)⟩ := Function.update_self ..
      refine inv_own h (i := id) (.here (hself _) rfl (hok.lt id hid) (fun _ => ⟨?_, ?_⟩)
        (fun _ _ => ?_) (fun hf => ?_) hok.ready fun _ hf => ?_) (others s k _)
        (fun k' => hi hid) (fun id' hx => ?_) rfl rfl rfl (Nat.le_refl _)
        (fun _ hx => Function.update_of_ne hx ..) (fun _ hx => Function.update_of_ne hx ..)
        (hok.lt id hid) (fun t now ws ht => ?_)
        (fun x hx => (List.mem_orderedInsert before).mpr (.inr hx))
        (List.Pairwise.orderedInsert _ _ h.sorted) (fun x hx hi => ?_)
        (fun x hx hi => ?_) fun x hx => ?_
      · exact Function.update_self ..
      · exact (List.mem_orderedInsert before).mpr (.inl rfl)
      · exact congrArg TimerSlot.waker hslot
      · exact nomatch (congrArg TimerSlot.fired hslot).symm.trans hf
      · exact nomatch (congrArg TimerSlot.fired hslot).symm.trans hf
      · exact (Option.some.inj (hpc hx)).symm
      · -- Nobody fires a timer that is not listed.
        exact absurd hk (((h.fire t).taking now id ws ht).2.2 k)
      · rcases (List.mem_orderedInsert before).mp hx with rfl | hx
        · rfl
        · exact (h.heap x hx).2 k (by rw [hi]; exact hid)
      · rcases (List.mem_orderedInsert before).mp hx with rfl | hx
        · exact absurd rfl hi
        · exact hx
      · rcases (List.mem_orderedInsert before).mp hx with rfl | hx
        · exact .inr (.inl ⟨k, hself _, rfl⟩)
        · exact (h.planned x hx).other (fun k' hk' => (others s k _ k' hk').1)
            (fun id hid => nomatch hk.symm.trans hid) rfl rfl
  | inserted id =>
      have hid : (s.sleep k).id = some id := by rw [hk]; rfl
      have hw : (s.sleep k).waits = some id := by rw [hk]; rfl
      refine inv_own h (i := id) (.here (hself _) rfl (hok.lt id hid) (hok.listed id hw)
        (fun _ => hok.registered id hw (by rw [hk]; nofun)) (hok.early id hw) hok.ready
        fun _ => hok.told id (by rw [hk]; rfl)) (others s k _)
        (fun k' => hi hid) (fun id' hx => ?_) rfl rfl rfl (Nat.le_refl _) (fun _ _ => rfl)
        (fun _ _ => rfl) (hok.lt id hid) (fun t now ws ht => ⟨?_, ?_⟩) (fun _ hx => hx) h.sorted
        (fun x hx hi => (h.heap x hx).2 k (by rw [hi]; exact hid)) (fun _ hx _ => hx) fun x hx => ?_
      · exact (Option.some.inj (hpc hx)).symm
      · exact ((h.fire t).taking now id ws ht).1
      · exact fun hx => nomatch (hself (.listed id)).symm.trans hx
      · rcases h.planned x hx with hx | ⟨k', hk', htime⟩ | hx
        · exact .inl (Nat.le_trans (Nat.min_le_left ..) hx)
        · by_cases hkk : k' = k
          · rw [hkk] at htime
            exact .inl (htime ▸ Nat.min_le_right ..)
          · exact .inr (.inl ⟨k', (others s k _ k' hkk).1.trans hk', htime⟩)
        · exact .inr (.inr hx)
  | listed id =>
      have hid : (s.sleep k).id = some id := by rw [hk]; rfl
      have hw : (s.sleep k).waits = some id := by rw [hk]; rfl
      refine inv_quiet h (.here (hself _) rfl (hok.lt id hid) (hok.listed id hw)
        (fun _ => hok.registered id hw (by rw [hk]; nofun)) (hok.early id hw) hok.ready
        fun _ => hok.told id (by rw [hk]; rfl)) (others s k _) (fun id' hx => ?_) ?_ ?_
        rfl rfl rfl rfl rfl rfl rfl rfl
      · rw [hid]
        exact hpc hx
      · exact fun id' hx => nomatch (hself (.waiting id)).symm.trans hx
      · exact fun id' hx => nomatch hk.symm.trans hx
  | looked id =>
      have hid : (s.sleep k).id = some id := by rw [hk]; rfl
      have hw : (s.sleep k).waits = some id := by rw [hk]; rfl
      have hslot : Function.update s.slot id { s.slot id with waker := some (k, s.polls k) } id =
          { s.slot id with waker := some (k, s.polls k) } := Function.update_self ..
      have hfired : ∀ {b}, (Function.update s.slot id
          { s.slot id with waker := some (k, s.polls k) } id).fired = b → (s.slot id).fired = b :=
        fun hf => (congrArg TimerSlot.fired hslot).symm.trans hf
      refine inv_own h (i := id) (.here (hself _) rfl (hok.lt id hid)
        (fun hf => hok.listed id hw (hfired hf)) (fun _ _ => congrArg TimerSlot.waker hslot)
        (fun hf => hok.early id hw (hfired hf)) hok.ready nofun) (others s k _)
        (fun k' => hi hid) (fun id' hx => ?_) rfl rfl rfl (Nat.le_refl _) (fun _ _ => rfl)
        (fun _ hx => Function.update_of_ne hx ..) (hok.lt id hid) (fun t now ws ht => ⟨?_, ?_⟩)
        (fun _ hx => hx) h.sorted (fun x hx hi => (h.heap x hx).2 k (by rw [hi]; exact hid))
        (fun _ hx _ => hx) fun x hx => ?_
      · exact (Option.some.inj (hpc hx)).symm
      · exact (congrArg TimerSlot.fired hslot).trans ((h.fire t).taking now id ws ht).1
      · exact fun hx => nomatch (hself (.stored id)).symm.trans hx
      · exact (h.planned x hx).other (fun k' hk' => (others s k _ k' hk').1)
          (fun id hid => nomatch hk.symm.trans hid) rfl rfl
  | stored id =>
      have hid : (s.sleep k).id = some id := by rw [hk]; rfl
      have hw : (s.sleep k).waits = some id := by rw [hk]; rfl
      have hready : ∀ {b}, Function.update s.ready k (s.slot id).fired k = b →
          (s.slot id).fired = b := fun hx => (Function.update_self ..).symm.trans hx
      -- The poll returns what the flag says.
      refine inv_quiet h (.here (hself _) rfl (hok.lt id hid) (hok.listed id hw)
        (fun _ => hok.registered id hw (by rw [hk]; nofun)) (hok.early id hw)
        (fun hx => hok.early id hw (hready hx)) fun _ hf => .inl ?_)
        (fun k' hk' => ⟨(others s k _ k' hk').1, Function.update_of_ne hk' .., rfl⟩)
        (fun id' hx => ?_) ?_ ?_ rfl rfl rfl rfl rfl rfl rfl rfl
      · exact (Function.update_self ..).trans hf
      · rw [hid]
        exact hpc hx
      · exact fun id' hx => nomatch (hself (.waiting id)).symm.trans hx
      · exact fun id' hx => nomatch hk.symm.trans hx
  | dropping id =>
      have hid : (s.sleep k).id = some id := by rw [hk]; rfl
      refine inv_own h (i := id) (.away ?_ ?_ ?_ hok.ready) (others s k _) (fun k' => hi hid)
        (fun id' hx => nomatch hpc hx) rfl rfl rfl (Nat.le_refl _)
        (fun _ hx => Function.update_of_ne hx ..) (fun _ _ => rfl) (hok.lt id hid)
        (fun t now ws ht => ⟨?_, ?_⟩) (fun _ hx => hx) h.sorted
        (fun x hx hi => (h.heap x hx).2 k (by rw [hi]; exact hid)) (fun _ hx _ => hx) fun x hx => ?_
      · exact congrArg SleepPc.waits (hself _)
      · exact fun id' hx => nomatch hpc hx
      · exact fun id' hx => nomatch (hself .dropped).symm.trans hx
      · exact ((h.fire t).taking now id ws ht).1
      · exact fun hx => nomatch (hself .dropped).symm.trans hx
      · exact (h.planned x hx).other (fun k' hk' => (others s k _ k' hk').1)
          (fun id hid => nomatch hk.symm.trans hid) rfl rfl

end

section

variable [DecidableEq T] {time : S → Nat} {s s' : State S T} {t : T} {pc : FirePc S}

/-- A step of the thread `t`. -/
theorem inv_fire (h : Inv time s) (hok : ∀ k, SleepOk time s' k) (hpc : FireOk s' t)
    (hfire : s'.fire = Function.update s.fire t pc) (hsleep : s'.sleep = s.sleep)
    (hseq : s'.seq = s.seq) (hclock : s'.clock = s.clock)
    (hfired : ∀ id, (s.slot id).fired = true → (s'.slot id).fired = true)
    (hheap : s'.heap.Sublist s.heap) (hslots : ∀ id, s'.slots id = true → s.slots id = true)
    (hplanned : ∀ x ∈ s'.heap, Planned time s' x) : Inv time s' := by
  refine ⟨hok, fun t' => ?_, fun k k' id => ?_, fun x hx => ?_, h.sorted.sublist hheap,
    fun id hid => ?_, hplanned⟩
  · -- Of the other threads nothing changes but that the clock and the ids go on.
    by_cases htt : t' = t
    · rw [htt]
      exact hpc
    · refine (h.fire t').congr ?_ (Nat.le_of_eq hseq.symm) (Nat.le_of_eq hclock.symm)
        fun id hf _ hnot => ⟨hfired id hf, by rw [hsleep]; exact hnot⟩
      rw [hfire, Function.update_of_ne htt]
  · rw [hsleep]
    exact h.inj k k' id
  · rw [hsleep, hseq]
    exact h.heap x (hheap.subset hx)
  · rw [hseq]
    exact h.slots id (hslots id hid)

/-- Whatever another thread does, it has what it has collected. -/
theorem told_move {id : Nat} {w : S × Nat} (h : Told s id w)
    (hfire : s'.fire = Function.update s.fire t pc) (hwoken : ∀ x ∈ s.woken, x ∈ s'.woken)
    (hcollected : ∀ x ∈ (s.fire t).collected, x ∈ pc.collected ∨ x ∈ s'.woken)
    (htaking : (s.slot id).waker = some w →
      (s'.slot id).waker = some w ∧ (∀ now ws, s.fire t ≠ .taking now id ws) ∨
        w ∈ pc.collected) : Told s' id w := by
  have hself : s'.fire t = pc := by rw [hfire, Function.update_self]
  have hother : ∀ t', t' ≠ t → s'.fire t' = s.fire t' := fun t' ht' => by
    rw [hfire, Function.update_of_ne ht']
  -- It was woken; it is among what a thread has collected; or it is just being taken.
  rcases h with h | ⟨t', h⟩ | ⟨hw, t', now, ws, h⟩
  · exact .inl (hwoken w h)
  · by_cases ht' : t' = t
    · rw [ht'] at h
      rcases hcollected w h with hx | hx
      · exact .inr (.inl ⟨t, by rw [hself]; exact hx⟩)
      · exact .inl hx
    · exact .inr (.inl ⟨t', by rw [hother t' ht']; exact h⟩)
  · rcases htaking hw with ⟨hw', hnot⟩ | hx
    · have ht' : t' ≠ t := by
        rintro rfl
        exact hnot now ws h
      exact .inr (.inr ⟨hw', t', now, ws, by rw [hother t' ht']; exact h⟩)
    · exact .inr (.inl ⟨t, by rw [hself]; exact hx⟩)

/-- A step of the thread that leaves the timers as they are. -/
theorem sleepOk_move (h : Inv time s) (hfire : s'.fire = Function.update s.fire t pc)
    (hsleep : s'.sleep = s.sleep) (hready : s'.ready = s.ready) (hpolls : s'.polls = s.polls)
    (hseq : s'.seq = s.seq) (hclock : s'.clock = s.clock) (hslots : s'.slots = s.slots)
    (hslot : s'.slot = s.slot)
    (hheap : ∀ x ∈ s.heap, s.slots x.2 = true → x ∈ s'.heap)
    (hwoken : ∀ x ∈ s.woken, x ∈ s'.woken)
    (hcollected : ∀ x ∈ (s.fire t).collected, x ∈ pc.collected ∨ x ∈ s'.woken)
    (htaking : ∀ now id ws, s.fire t ≠ .taking now id ws) (k : S) : SleepOk time s' k := by
  refine (h.sleep k).congr (by rw [hsleep]) (by rw [hready]) (by rw [hpolls])
    (Nat.le_of_eq hseq.symm) (Nat.le_of_eq hclock.symm) (fun _ _ => by rw [hslots])
    (fun _ _ => by rw [hslot]) (fun id _ hx hm => hheap _ hm hx) fun id w _ ht => ?_
  exact told_move ht hfire hwoken hcollected
    fun hw => .inl ⟨by rw [hslot]; exact hw, fun now ws => htaking now id ws⟩

/-- A thread that has set the deadline again is not needed for the others. -/
theorem planned_move {x : Nat × Nat} (h : Planned time s x)
    (hfire : s'.fire = Function.update s.fire t pc) (hsleep : s'.sleep = s.sleep)
    (hdeadline : s'.deadline = s.deadline) (hclears : ¬ (s.fire t).Clears) :
    Planned time s' x := by
  rcases h with h | h | ⟨t', h⟩
  · exact .inl (by rw [hdeadline]; exact h)
  · exact .inr (.inl (by rw [hsleep]; exact h))
  · have htt : t' ≠ t := by
      rintro rfl
      exact hclears h
    exact .inr (.inr ⟨t', by rw [hfire, Function.update_of_ne htt]; exact h⟩)

/-- The thread marks a timer whose time has come. -/
theorem inv_mark (h : Inv time s) {now first id : Nat} {woken : List (S × Nat)}
    {heap : List (Nat × Nat)} (hpc : s.fire t = .looping now woken)
    (hheap : s.heap = (first, id) :: heap) (hdue : first ≤ now) (hlisted : s.slots id = true) :
    Inv time (s.mark t now id woken heap) := by
  have hnow : now ≤ s.clock := (h.fire t).clock now (by rw [hpc]; rfl)
  have hself : Function.update s.fire t (.taking now id woken) t = .taking now id woken :=
    Function.update_self ..
  have hslot : Function.update s.slot id { s.slot id with fired := true } id =
      { s.slot id with fired := true } := Function.update_self ..
  have hmem : (first, id) ∈ s.heap := by
    rw [hheap]
    exact List.mem_cons_self
  -- The timer is marked and taken off the heap; its waker stays for now.
  have hwaker : ∀ id', (Function.update s.slot id { s.slot id with fired := true } id').waker =
      (s.slot id').waker := by
    intro id'
    by_cases hx : id' = id
    · rw [hx, hslot]
    · rw [Function.update_of_ne hx]
  have htold : ∀ {id' w}, Told s id' w → Told (s.mark t now id woken heap) id' w :=
    fun ht => told_move ht rfl (fun _ hx => hx) (fun x hx => by rw [hpc] at hx; exact .inl hx)
      fun hw => .inl ⟨(hwaker _).trans hw, fun _ _ hx => nomatch hpc.symm.trans hx⟩
  -- A slot that is listed is not one that a `Sleep` has only taken.
  have hnot : ∀ k, s.sleep k ≠ .taken id := fun k hk =>
    nomatch ((h.sleep k).taken id hk).symm.trans hlisted
  refine inv_fire h (fun k => ?_) ⟨fun now' hx => ?_, fun now' id' ws hx => ?_⟩ rfl rfl rfl rfl
    (fun id' hf => ?_) ?_ (fun id' hx => ?_) fun x _ => .inr (.inr ⟨t, ?_⟩)
  · have hok := h.sleep k
    by_cases hk : (s.sleep k).id = some id
    · by_cases hw : (s.sleep k).waits = none
      · exact .away hw hok.lt (fun id' hx => by
          rw [show (s.sleep k).id = some id' from congrArg SleepPc.id hx] at hk
          cases hk
          exact absurd hx (hnot k)) hok.ready
      · have hw : (s.sleep k).waits = some id := by
          rcases Option.ne_none_iff_exists'.mp hw with ⟨id', hx⟩
          rw [SleepPc.id_of_waits hx] at hk
          rw [hx, hk]
        refine .here rfl hw (hok.lt id hk) (fun hf => ?_) (fun _ hf => ?_) (fun _ => ?_) hok.ready
          fun hr _ => ?_
        · exact nomatch (congrArg TimerSlot.fired hslot).symm.trans hf
        · exact nomatch (congrArg TimerSlot.fired hslot).symm.trans hf
        · rw [← (h.heap _ hmem).2 k hk]
          exact Nat.le_trans hdue hnow
        · cases hf : (s.slot id).fired with
          | true => exact (hok.told id hr hf).imp_right htold
          | false =>
              -- Its waker is in the slot.
              have hne : s.sleep k ≠ .looked id := fun hx => by
                have hr : (s.sleep k).rests = some id := hr
                rw [hx] at hr
                cases hr
              exact .inr (.inr (.inr ⟨(hwaker id).trans (hok.registered id hw hne hf),
                t, now, woken, hself⟩))
    · have hne : ∀ id', (s.sleep k).id = some id' → id' ≠ id := by
        rintro id' hx rfl
        exact hk hx
      refine hok.congr rfl rfl rfl (Nat.le_refl _) (Nat.le_refl _)
        (fun id' hx => Function.update_of_ne (hne id' hx) ..)
        (fun id' hx => Function.update_of_ne (hne id' hx) ..) (fun id' hx _ hm => ?_)
        fun _ _ _ => htold
      rw [hheap] at hm
      rcases List.mem_cons.mp hm with hm | hm
      · cases hm
        exact absurd rfl (hne id hx)
      · exact hm
  · have hx : now = now' := Option.some.inj ((congrArg FirePc.now hself).symm.trans hx)
    rw [← hx]
    exact hnow
  · have hx := hself.symm.trans hx
    cases hx
    exact ⟨congrArg TimerSlot.fired hslot, (h.heap _ hmem).1, hnot⟩
  · by_cases hx : id' = id
    · rw [hx]
      exact congrArg TimerSlot.fired hslot
    · exact (congrArg TimerSlot.fired (Function.update_of_ne hx ..)).trans hf
  · rw [hheap]
    exact List.sublist_cons_self ..
  · by_cases hne : id' = id
    · rw [hne]
      exact hlisted
    · exact (Function.update_of_ne hne ..).symm.trans hx
  · rw [show (s.mark t now id woken heap).fire t = .taking now id woken from hself]
    trivial

/-- The thread is at the heap. -/
theorem inv_peek (h : Inv time s) {now : Nat} {woken : List (S × Nat)}
    (hpc : s.fire t = .looping now woken) : Inv time (s.peek t now woken) := by
  have hself : ∀ pc : FirePc S, Function.update s.fire t pc t = pc := fun pc =>
    Function.update_self ..
  have hnow : now ≤ s.clock := (h.fire t).clock now (by rw [hpc]; rfl)
  have hnot : ∀ now' id ws, s.fire t ≠ .taking now' id ws := fun _ _ _ hx =>
    nomatch hpc.symm.trans hx
  have hcollected : ∀ x ∈ (s.fire t).collected, x ∈ woken := fun x hx => by
    rw [hpc] at hx
    exact hx
  have hdone : ∀ s' : State S T, s'.fire t = .waking woken → FireOk s' t := by
    refine fun s' hs => ⟨fun now' hx => ?_, fun now' id ws hx => ?_⟩
    · rw [hs] at hx
      cases hx
    · exact nomatch hs.symm.trans hx
  unfold State.peek
  cases hheap : s.heap with
  | nil =>
      refine inv_fire h (sleepOk_move h rfl rfl rfl rfl rfl rfl rfl rfl ?_ (fun _ hx => hx)
        (fun x hx => .inl (hcollected x hx)) hnot) (hdone _ (hself _)) rfl rfl rfl rfl
        (fun _ hf => hf) (.refl _) (fun _ hx => hx) ?_
      · exact fun x hx _ => hx
      · intro x hx
        change x ∈ s.heap at hx
        rw [hheap] at hx
        cases hx
  | cons x heap =>
      rcases x with ⟨first, id⟩
      dsimp only
      split
      · -- No timer is due, and the first one is the next.
        refine inv_fire h (sleepOk_move h rfl rfl rfl rfl rfl rfl rfl rfl ?_ (fun _ hx => hx)
          (fun x hx => .inl (hcollected x hx)) hnot) (hdone _ (hself _)) rfl rfl rfl rfl
          (fun _ hf => hf) (.refl _) (fun _ hx => hx) ?_
        · exact fun x hx _ => hx
        · intro x hx
          refine .inl (Nat.le_trans (Nat.min_le_right ..) ?_)
          have hsorted := h.sorted
          change x ∈ s.heap at hx
          rw [hheap] at hsorted hx
          rcases List.mem_cons.mp hx with rfl | hx
          · exact Nat.le_refl _
          · have hle := List.rel_of_pairwise_cons hsorted hx
            unfold before at hle
            dsimp only at hle
            omega
      · next hdue =>
          split
          · next hlisted => exact inv_mark h hpc hheap (Nat.le_of_not_lt hdue) hlisted
          · next hlisted =>
              -- The `Sleep` was dropped.
              refine inv_fire h (sleepOk_move h rfl rfl rfl rfl rfl rfl rfl rfl ?_ (fun _ hx => hx)
                (fun x hx => .inl (hcollected x hx)) hnot) ⟨fun now' hx => ?_, fun _ _ _ hx => ?_⟩
                rfl rfl rfl rfl (fun _ hf => hf) ?_ (fun _ hx => hx)
                fun x _ => .inr (.inr ⟨t, ?_⟩)
              · intro x hx hs
                rw [hheap] at hx
                rcases List.mem_cons.mp hx with rfl | hx
                · exact absurd hs hlisted
                · exact hx
              · rw [show ({ s.setFire t (.looping now woken) with heap := heap } :
                  State S T).fire t = .looping now woken from hself _] at hx
                cases hx
                exact hnow
              · exact nomatch (hself (.looping now woken)).symm.trans hx
              · rw [hheap]
                exact List.sublist_cons_self ..
              · rw [show ({ s.setFire t (.looping now woken) with heap := heap } :
                  State S T).fire t = .looping now woken from hself _]
                trivial

/-- The thread takes the waker of the timer it has marked. -/
theorem inv_take (h : Inv time s) {now id : Nat} {woken : List (S × Nat)}
    (hpc : s.fire t = .taking now id woken) : Inv time (s.fireStep t) := by
  have hnow : now ≤ s.clock := (h.fire t).clock now (by rw [hpc]; rfl)
  have hfired : (s.slot id).fired = true := ((h.fire t).taking now id woken hpc).1
  unfold State.fireStep
  rw [hpc]
  dsimp only
  have hself : Function.update s.fire t (.looping now (woken ++ (s.slot id).waker.toList)) t =
      .looping now (woken ++ (s.slot id).waker.toList) := Function.update_self ..
  -- Taking the waker leaves the flag as it is.
  have hflag : ∀ id', (Function.update s.slot id { s.slot id with waker := none } id').fired =
      (s.slot id').fired := by
    intro id'
    by_cases hx : id' = id
    · rw [hx, Function.update_self]
    · rw [Function.update_of_ne hx]
  refine inv_fire h (fun k => ?_) ⟨fun now' hx => ?_, fun now' id' ws hx => ?_⟩ rfl rfl rfl rfl
    (fun id' hf => (hflag id').trans hf) (.refl _) (fun _ hx => hx) fun x _ => .inr (.inr ⟨t, ?_⟩)
  · have hok := h.sleep k
    refine ⟨hok.lt, hok.taken, fun id' hw hf => hok.listed id' hw ((hflag id').symm.trans hf),
      fun id' hw hne hf => ?_, fun id' hw hf => hok.early id' hw ((hflag id').symm.trans hf),
      hok.ready, fun id' hr hf => ?_⟩
    · have hf : (s.slot id').fired = false := (hflag id').symm.trans hf
      -- A timer that has not fired is not the one that was marked.
      have hx : id' ≠ id := fun hx => by
        rw [hx, hfired] at hf
        cases hf
      exact (congrArg TimerSlot.waker (Function.update_of_ne hx ..)).trans
        (hok.registered id' hw hne hf)
    · refine (hok.told id' hr ((hflag id').symm.trans hf)).imp_right fun ht => ?_
      refine told_move ht rfl (fun _ hx => hx) (fun x hx => ?_) fun hw => ?_
      · rw [hpc] at hx
        exact .inl (List.mem_append_left _ hx)
      · by_cases hx : id' = id
        · rw [hx] at hw
          exact .inr (List.mem_append_right _ (by rw [hw]; exact List.mem_singleton_self _))
        · refine .inl ⟨(congrArg TimerSlot.waker (Function.update_of_ne hx ..)).trans hw, ?_⟩
          intro now' ws hy
          have hy := hpc.symm.trans hy
          cases hy
          exact hx rfl
  · have hx : now = now' := Option.some.inj ((congrArg FirePc.now hself).symm.trans hx)
    rw [← hx]
    exact hnow
  · exact nomatch hself.symm.trans hx
  · have hclears : (Function.update s.fire t
        (.looping now (woken ++ (s.slot id).waker.toList)) t).Clears := by
      rw [hself]
      trivial
    exact hclears

/-- The next step of the run of the timer duty. -/
theorem inv_fireStep (h : Inv time s) (hg : s.fire t ≠ .idle) : Inv time (s.fireStep t) := by
  have hself : ∀ pc : FirePc S, Function.update s.fire t pc t = pc := fun pc =>
    Function.update_self ..
  -- `run` clears the deadline, takes the lock, and pops what is due before it wakes anybody.
  cases hpc : s.fire t with
  | idle => exact absurd hpc hg
  | taking now id woken => exact inv_take h hpc
  | looping now woken =>
      unfold State.fireStep
      rw [hpc]
      exact inv_peek h hpc
  | cleared =>
      unfold State.fireStep
      rw [hpc]
      refine inv_fire h (sleepOk_move h rfl rfl rfl rfl rfl rfl rfl rfl (fun _ hx _ => hx)
        (fun _ hx => hx) (fun x hx => ?_) fun _ _ _ hx => nomatch hpc.symm.trans hx)
        ⟨fun now hx => ?_, fun _ _ _ hx => ?_⟩ rfl rfl rfl rfl (fun _ hf => hf) (.refl _)
        (fun _ hx => hx) fun x _ => .inr (.inr ⟨t, ?_⟩)
      · rw [hpc] at hx
        cases hx
      · rw [← Option.some.inj ((congrArg FirePc.now (hself (.locking s.clock))).symm.trans hx)]
        exact Nat.le_refl _
      · exact nomatch (hself (.locking s.clock)).symm.trans hx
      · rw [show (s.setFire t (.locking s.clock)).fire t = .locking s.clock from hself _]
        trivial
  | locking now =>
      have hnow : now ≤ s.clock := (h.fire t).clock now (by rw [hpc]; rfl)
      unfold State.fireStep
      rw [hpc]
      refine inv_fire h (sleepOk_move h rfl rfl rfl rfl rfl rfl rfl rfl (fun _ hx _ => hx)
        (fun _ hx => hx) (fun x hx => ?_) fun _ _ _ hx => nomatch hpc.symm.trans hx)
        ⟨fun now' hx => ?_, fun _ _ _ hx => ?_⟩ rfl rfl rfl rfl (fun _ hf => hf) (.refl _)
        (fun _ hx => hx) fun x _ => .inr (.inr ⟨t, ?_⟩)
      · rw [hpc] at hx
        cases hx
      · rw [← Option.some.inj ((congrArg FirePc.now (hself (.looping now []))).symm.trans hx)]
        exact hnow
      · exact nomatch (hself (.looping now [])).symm.trans hx
      · rw [show ({ s.setFire t (.looping now []) with lock := true } : State S T).fire t =
          .looping now [] from hself _]
        trivial
  | waking woken =>
      have hclears : ¬ (s.fire t).Clears := by
        rw [hpc]
        exact id
      have hnot : ∀ now id ws, s.fire t ≠ .taking now id ws := fun _ _ _ hx =>
        nomatch hpc.symm.trans hx
      unfold State.fireStep
      rw [hpc]
      -- The lock is free by now; the wakers are invoked one by one.
      cases woken with
      | nil =>
          refine inv_fire h (sleepOk_move h rfl rfl rfl rfl rfl rfl rfl rfl (fun _ hx _ => hx)
            (fun _ hx => hx) (fun x hx => ?_) hnot)
            ⟨fun now' hx => ?_, fun _ _ _ hx => ?_⟩ rfl rfl rfl rfl (fun _ hf => hf) (.refl _)
            (fun _ hx => hx) fun x hx => planned_move (h.planned x hx) rfl rfl rfl hclears
          · rw [hpc] at hx
            cases hx
          · exact nomatch (congrArg FirePc.now (hself .idle)).symm.trans hx
          · exact nomatch (hself .idle).symm.trans hx
      | cons w woken =>
          refine inv_fire h (sleepOk_move h rfl rfl rfl rfl rfl rfl rfl rfl (fun _ hx _ => hx)
            (fun _ hx => List.mem_cons_of_mem _ hx) (fun x hx => ?_) hnot)
            ⟨fun now' hx => ?_, fun _ _ _ hx => ?_⟩ rfl rfl rfl rfl (fun _ hf => hf) (.refl _)
            (fun _ hx => hx) fun x hx => planned_move (h.planned x hx) rfl rfl rfl hclears
          · rw [hpc] at hx
            rcases List.mem_cons.mp hx with rfl | hx
            · exact .inr List.mem_cons_self
            · exact .inl hx
          · exact nomatch (congrArg FirePc.now (hself (.waking woken))).symm.trans hx
          · exact nomatch (hself (.waking woken)).symm.trans hx

/-- `run` clears the deadline. -/
theorem inv_start (h : Inv time s) (hg : s.fire t = .idle) :
    Inv time { s.setFire t .cleared with deadline := NEVER } := by
  have hself : Function.update s.fire t .cleared t = .cleared := Function.update_self ..
  refine inv_fire h (sleepOk_move h rfl rfl rfl rfl rfl rfl rfl rfl (fun _ hx _ => hx)
    (fun _ hx => hx) (fun x hx => ?_) fun _ _ _ hx => nomatch hg.symm.trans hx)
    ⟨fun now hx => ?_, fun _ _ _ hx => ?_⟩ rfl rfl rfl rfl (fun _ hf => hf) (.refl _)
    (fun _ hx => hx) fun x _ => .inr (.inr ⟨t, ?_⟩)
  · rw [hg] at hx
    cases hx
  · exact nomatch (congrArg FirePc.now hself).symm.trans hx
  · exact nomatch hself.symm.trans hx
  · rw [show ({ s.setFire t .cleared with deadline := NEVER } : State S T).fire t = .cleared
      from hself]
    trivial

/-- Every step keeps what is true of timers. -/
theorem inv_next [DecidableEq S] (h : Inv time s) {a : Action S T} (hg : guard s a) :
    Inv time (next time s a) := by
  cases a with
  | poll k => exact inv_poll h hg
  | step k => exact inv_sleepStep h hg.1
  | drop k => exact inv_drop h hg
  | start t => exact inv_start h hg
  | fire t => exact inv_fireStep h hg.1
  | tick =>
      refine ⟨fun k => ?_, fun t => ?_, h.inj, h.heap, h.sorted, h.slots, h.planned⟩
      · exact (h.sleep k).congr rfl rfl rfl (Nat.le_refl _) (Nat.le_succ _) (fun _ _ => rfl)
          (fun _ _ => rfl) (fun _ _ _ hm => hm) fun _ _ _ ht => ht
      · exact (h.fire t).congr rfl (Nat.le_refl _) (Nat.le_succ _) fun _ hf _ hk => ⟨hf, hk⟩

omit [DecidableEq T] in
theorem inv_init (hi : init s) : Inv time s := by
  rcases hi with ⟨hheap, hslots, _, _, hsleep, hfire⟩
  refine ⟨fun k => ?_, fun t => ⟨fun now hx => ?_, fun _ _ _ hx => ?_⟩, fun k k' id hid => ?_,
    fun x hx => ?_, ?_, fun id hx => ?_, fun x hx => ?_⟩
  · -- Every `Sleep` is fresh, and the heap is empty.
    refine .away (by rw [(hsleep k).1]; rfl) (fun id hx => ?_) (fun id hx => ?_) fun hx => ?_
    · rw [(hsleep k).1] at hx
      cases hx
    · exact nomatch (hsleep k).1.symm.trans hx
    · exact nomatch (hsleep k).2.symm.trans hx
  · rw [hfire t] at hx
    cases hx
  · exact nomatch (hfire t).symm.trans hx
  · rw [(hsleep k).1] at hid
    cases hid
  · rw [hheap] at hx
    cases hx
  · rw [hheap]
    exact .nil
  · exact nomatch (hslots id).symm.trans hx
  · rw [hheap] at hx
    cases hx

end

section

variable [DecidableEq S] [DecidableEq T] {time : S → Nat} {s : State S T} {k : S} {t : T}

theorem inv_reachable (h : (system time).Reachable s) : Inv time s :=
  h.induct (fun _ => inv_init) fun _ _ hinv hg => inv_next hinv hg

/-- The thread goes on until the waker is invoked. -/
def Wakes (time : S → Nat) (s : State S T) (t : T) (w : S × Nat) : Prop :=
  (system time).Repeats (.fire t) (fun s' => w ∈ s'.woken) s

/-- The poll goes on until it has returned `Ready`. -/
def Observes (time : S → Nat) (s : State S T) (k : S) : Prop :=
  (system time).Repeats (.step k) (fun s' => s'.ready k = true) s

theorem wakes_step {pc : FirePc S} {w : S × Nat} (hpc : s.fire t = pc) (hne : pc ≠ .idle)
    (hlock : ∀ now, pc ≠ .locking now) (h : Wakes time (s.fireStep t) t w) :
    Wakes time s t w :=
  System.Repeats.step (M := system time) ⟨hpc ▸ hne, fun ⟨now, hx⟩ =>
    absurd (hpc.symm.trans hx) (hlock now)⟩ h

theorem wakes_waking {w : S × Nat} {woken : List (S × Nat)} (hpc : s.fire t = .waking woken)
    (hw : w ∈ woken) : Wakes time s t w := by
  induction woken generalizing s with
  | nil => cases hw
  | cons x woken ih =>
      refine wakes_step hpc nofun nofun ?_
      unfold State.fireStep
      rw [hpc]
      rcases List.mem_cons.mp hw with rfl | hw
      · exact System.repeats_none List.mem_cons_self
      · exact ih (Function.update_self ..) hw

theorem wakes_looping {w : S × Nat} {now : Nat} {woken : List (S × Nat)}
    (hpc : s.fire t = .looping now woken) (hw : w ∈ woken) : Wakes time s t w := by
  -- The heap gets shorter with each round of the loop.
  generalize hheap : s.heap = heap
  induction heap generalizing s woken with
  | nil =>
      refine wakes_step hpc nofun nofun ?_
      unfold State.fireStep
      rw [hpc]
      dsimp only
      unfold State.peek
      rw [hheap]
      exact wakes_waking (Function.update_self ..) hw
  | cons x heap ih =>
      rcases x with ⟨first, id⟩
      refine wakes_step hpc nofun nofun ?_
      unfold State.fireStep
      rw [hpc]
      dsimp only
      unfold State.peek
      rw [hheap]
      dsimp only
      split
      · exact wakes_waking (Function.update_self ..) hw
      · split
        · have hmark : (s.mark t now id woken heap).fire t = .taking now id woken :=
            Function.update_self ..
          refine wakes_step hmark nofun nofun ?_
          unfold State.fireStep
          rw [hmark]
          exact ih (Function.update_self ..) (List.mem_append_left _ hw) rfl
        · exact ih (Function.update_self ..) hw rfl

/-- Whoever is told is woken. -/
theorem Told.woken {id : Nat} {w : S × Nat} (h : Told s id w) :
    w ∈ s.woken ∨ ∃ t, Wakes time s t w := by
  rcases h with h | ⟨t, h⟩ | ⟨hw, t, now, ws, hpc⟩
  · exact .inl h
  · refine .inr ⟨t, ?_⟩
    -- From where its thread is it goes on to wake what it has collected.
    cases hpc : s.fire t <;> rw [hpc] at h
    case looping now ws => exact wakes_looping hpc h
    case waking ws => exact wakes_waking hpc h
    case taking now id ws =>
      refine wakes_step hpc nofun nofun ?_
      unfold State.fireStep
      rw [hpc]
      exact wakes_looping (Function.update_self ..) (List.mem_append_left _ h)
    all_goals cases h
  · refine .inr ⟨t, wakes_step hpc nofun nofun ?_⟩
    unfold State.fireStep
    rw [hpc]
    refine wakes_looping (Function.update_self ..) (List.mem_append_right _ ?_)
    rw [hw]
    exact List.mem_singleton_self _

/-- A poll that is to look again at a timer that has fired sees that it has. -/
theorem observes_stored {id : Nat} (hpc : s.sleep k = .stored id)
    (hfired : (s.slot id).fired = true) : Observes time s k := by
  have hg : guard s (.step k : Action S T) := by
    refine ⟨?_, ?_⟩ <;> rw [hpc]
    · trivial
    · exact False.elim
  refine System.Repeats.step hg (System.repeats_none ?_)
  change (s.sleepStep time k).ready k = true
  unfold State.sleepStep
  rw [hpc]
  exact (Function.update_self ..).trans hfired

theorem observes_looked {id : Nat} (hpc : s.sleep k = .looked id)
    (hfired : (s.slot id).fired = true) : Observes time s k := by
  have hg : guard s (.step k : Action S T) := by
    refine ⟨?_, ?_⟩ <;> rw [hpc]
    · trivial
    · exact False.elim
  refine System.Repeats.step hg ?_
  change Observes time (s.sleepStep time k) k
  unfold State.sleepStep
  rw [hpc]
  refine observes_stored (Function.update_self ..) ?_
  change (Function.update s.slot id { s.slot id with waker := some (k, s.polls k) } id).fired = true
  rw [Function.update_self]
  exact hfired

/-- In every state a `Sleep` that has been polled and has not fired is listed;
    the deadline is no later than its time once nothing is in progress; it is
    never early; and when its timer has fired, its last poll returns `Ready` or
    the waker of that poll is invoked. -/
theorem timers_timely (time : S → Nat) {s : State S T} (h : (system time).Reachable s) :
    (∀ k id, (s.sleep k).waits = some id → (s.slot id).fired = false →
      s.slots id = true ∧ (time k, id) ∈ s.heap) ∧
      ((∀ k, ¬ (s.sleep k).Polling) → (∀ t, s.fire t = .idle) →
        ∀ k id, (s.sleep k).waits = some id → (s.slot id).fired = false →
          s.deadline ≤ time k ∧ (time k < NEVER → s.deadline ≠ NEVER)) ∧
      (∀ k, s.ready k = true → time k ≤ s.clock) ∧
      ∀ k id, (s.sleep k).waits = some id → (s.slot id).fired = true →
        Observes time s k ∨ (k, s.polls k) ∈ s.woken ∨
          ∃ t, Wakes time s t (k, s.polls k) := by
  have hinv := inv_reachable h
  refine ⟨fun k => (hinv.sleep k).listed, fun hpoll hidle k id hw hf => ?_,
    fun k => (hinv.sleep k).ready, fun k id hw hf => ?_⟩
  · have hle : s.deadline ≤ time k := by
      rcases hinv.planned _ ((hinv.sleep k).listed id hw hf).2 with hx | ⟨k', hk', _⟩ | ⟨t, ht⟩
      · exact hx
      · refine absurd ?_ (hpoll k')
        rw [hk']
        trivial
      · rw [hidle t] at ht
        exact ht.elim
    exact ⟨hle, fun hlt hx => absurd (hx ▸ hle) (Nat.not_le.mpr hlt)⟩
  · by_cases hr : (s.sleep k).rests = some id
    · exact ((hinv.sleep k).told id hr hf).imp System.repeats_none Told.woken
    · -- The poll is in between its two looks.
      cases hpc : s.sleep k <;> rw [hpc] at hw hr <;> cases hw
      case looked.refl => exact .inl (observes_looked hpc hf)
      case stored.refl => exact .inl (observes_stored hpc hf)
      all_goals exact absurd rfl hr

end

/-- Nobody sleeps yet. -/
def new : State Bool Unit where
  heap := []
  slots _ := false
  slot _ := ⟨false, none⟩
  seq := 0
  deadline := NEVER
  lock := false
  clock := 0
  sleep _ := .fresh
  fire _ := .idle
  polls _ := 0
  ready _ := false
  woken := []

theorem new_init (time : Bool → Nat) : (system time).init new :=
  ⟨rfl, fun _ => rfl, rfl, rfl, fun _ => ⟨rfl, rfl⟩, fun _ => rfl⟩

/-- Two timers, of which one fires while its `Sleep` is polled again. -/
def polledAgain : List (Action Bool Unit) :=
  [.poll false, .step false, .step false, .step false, .poll true, .step true, .step true,
    .step true, .tick, .tick, .poll false, .start (), .fire (), .fire (), .fire (), .step false,
    .fire (), .step false, .fire (), .fire (), .fire ()]

/-- The times of the two timers. -/
def twoTimes (k : Bool) : Nat :=
  if k = true then 9 else 2

theorem polledAgain_legal : (system twoTimes).Legal new polledAgain := by
  decide

theorem polledAgain_quiet :
    (∀ k, ¬ (((system twoTimes).run new polledAgain).sleep k).Polling) ∧
      (∀ t, ((system twoTimes).run new polledAgain).fire t = .idle) := by
  refine ⟨fun k => ?_, fun t => ?_⟩
  · cases k <;> decide
  · cases t
    decide

/-- The deadline is that of the timer which is left, and the other `Sleep` knows
    that its timer has fired. -/
theorem timers_timely_polledAgain : ∃ s, s = (system twoTimes).run new polledAgain ∧
    s.deadline ≤ twoTimes true ∧ (Observes twoTimes s false ∨ (false, s.polls false) ∈ s.woken ∨
      ∃ t, Wakes twoTimes s t (false, s.polls false)) := by
  have h := timers_timely twoTimes
    ((system twoTimes).reachable_run polledAgain new (new_init _) polledAgain_legal)
  refine ⟨_, rfl, (h.2.1 polledAgain_quiet.1 polledAgain_quiet.2 true 1 ?_ ?_).1,
    h.2.2.2 false 0 ?_ ?_⟩ <;> decide +kernel

/-- A `Sleep` for longer than the clock runs. -/
def polledForever : List (Action Bool Unit) :=
  [.poll false, .step false, .step false, .step false]

/-- No deadline is set for a timer that is never due. -/
theorem deadline_unset :
    let s := (system fun _ => NEVER).run new polledForever
    (system fun _ => NEVER).Reachable s ∧ (∀ k, ¬ (s.sleep k).Polling) ∧
      (∀ t, s.fire t = .idle) ∧ (s.sleep false).waits = some 0 ∧ (s.slot 0).fired = false ∧
      s.deadline = NEVER := by
  intro s
  have hl : (system fun _ => NEVER).Legal new polledForever := by decide +kernel
  refine ⟨System.reachable_run _ polledForever new (new_init _) hl, fun k => ?_, fun _ => rfl, ?_⟩
  · cases k <;> decide +kernel
  · decide +kernel

end Timely

end Duty

end Cmpth

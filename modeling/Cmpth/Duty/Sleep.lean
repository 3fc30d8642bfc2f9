import Mathlib.Data.List.Sort
import Cmpth.Duty.Registry

/-!
# Timers

`Sleep` and the poll of the timer duty, `fire_timers`. The queue of timers is
under a lock, and a section under it is one step. So is one under the lock of a
slot: where `fire_timers` takes that inside its own section it makes no
difference, since nothing else in the section looks at the slot.

`fire_timers` collects the wakers of the timers whose time has come and invokes
them after it has given the lock back. A `Sleep` that is dropped in between has
nothing to take from its slot any more.

## Main definitions

* `State`, `Action`, `system`: Timers as a guarded transition system.
* `Silent`: No run from here wakes what a `Sleep` has registered.
* `DroppedSilent`: A dropped `Sleep` is silent.
* `NotCollected`: No waker of a `Sleep` has been collected when its drop
  returns.

## Theorems

* `fireLoop_woken`: `fire_timers` takes the wakers out of the slots.
* `owned_setSleep`: A `Sleep` that waits where it has waited changes nothing.
* `owned_setSlot`: A `Sleep` stores to its own slot, where its waker is if it has one.
* `owned_next`, `owned_init`: The wakers in the slots are those of the `Sleep`s that wait.
* `dropped_next`: A drop that has returned has returned.
* `collected_next`: Wakers are collected from the slots of those that wait.
* `gone_next`: What is gone stays gone.
* `silent_of_gone`: A `Sleep` of which nothing is left is silent.
* `not_silent`: A waker that has been collected is going to be invoked.
* `dropped_of_next`: The `Sleep`s that a step drops.
* `fire_drop`: A drop returns and leaves the threads alone.
* `dropped_silent_iff`: Dropped `Sleep`s are silent in exactly the runs in which no drop returns
  with a waker collected.
* `dropped_silent_iff_early`, `dropped_woken`: A `Sleep` that is dropped early, and one that is
  dropped while its waker is collected.
-/

namespace Cmpth

namespace Duty

namespace Timers

/-- A waker, with the `Sleep` whose poll has registered it. -/
structure Registered (S W : Type*) where
  sleep : S
  waker : W
  deriving DecidableEq, Repr

/-- `TimerSlot`. -/
structure TimerSlot (S W : Type*) where
  fired : Bool
  waker : Option (Registered S W)

/-- Where a `Sleep` is. It has its slot from `taken` on. -/
inductive SleepPc (W : Type*) where
  /-- `slot` is `None`. -/
  | fresh
  /-- `poll` has an id; about to list the slot. -/
  | taken (id : Nat) (waker : W)
  | waiting (id : Nat)
  /-- `poll`: has not fired; about to store the waker. -/
  | polled (id : Nat) (waker : W)
  /-- `poll`: about to look again. -/
  | stored (id : Nat)
  /-- `drop`: has taken the waker; about to unlist the slot. -/
  | dropping (id : Nat)
  | dropped
  deriving DecidableEq, Repr

/-- Where a thread is in the run of the timer duty. -/
inductive FirePc (S W : Type*) where
  | idle
  /-- The deadline is cleared. -/
  | polling
  /-- The wakers that are still to be invoked. -/
  | waking (woken : List (Registered S W))
  deriving DecidableEq, Repr

/-- `heap` is sorted: its first element is what the code's heap yields first.
    `slots` has the ids of the slots that are listed. -/
structure State (S T W : Type*) where
  heap : List (Nat × Nat)
  slots : Nat → Bool
  slot : Nat → TimerSlot S W
  seq : Nat
  deadline : Nat
  sleep : S → SleepPc W
  fire : T → FirePc S W

/-- The steps of polls and of drops, and those of the threads that run the timer duty. -/
inductive Action (S T W : Type*) where
  /-- The first poll, up to the id. -/
  | pollFirst (k : S) (waker : W) (now : Nat)
  /-- The first poll lists its slot. -/
  | list (k : S)
  /-- A later poll looks whether the timer has fired. -/
  | poll (k : S) (waker : W)
  | store (k : S)
  | pollAgain (k : S)
  /-- `drop` takes the waker. -/
  | drop (k : S)
  /-- `drop` unlists the slot. -/
  | unlist (k : S)
  /-- `run` clears the deadline. -/
  | start (t : T)
  /-- The section of `fire_timers`. -/
  | fire (t : T) (now : Nat)
  /-- `fire_timers` invokes the next waker, or is done. -/
  | wake (t : T)
  deriving DecidableEq, Repr

variable {S T W : Type*}

/-- The loop of `fire_timers`: the heap, the slots and the wakers collected. -/
def fireLoop (now : Nat) : List (Nat × Nat) → (Nat → Bool) → (Nat → TimerSlot S W) →
    List (Nat × Nat) × (Nat → Bool) × (Nat → TimerSlot S W) × List (Registered S W)
  | [], slots, slot => ([], slots, slot, [])
  | (time, id) :: heap, slots, slot =>
      if time > now then ((time, id) :: heap, slots, slot, [])
      else if slots id = true then
        let r := fireLoop now heap (Function.update slots id false)
          (Function.update slot id
            { fired := true
              waker := none })
        (r.1, r.2.1, r.2.2.1, (slot id).waker.toList ++ r.2.2.2)
      else fireLoop now heap slots slot

/-- The order of the heap, `Reverse((at, id))`. -/
def before (x y : Nat × Nat) : Prop :=
  x.1 < y.1 ∨ x.1 = y.1 ∧ x.2 ≤ y.2

instance (x y : Nat × Nat) : Decidable (before x y) :=
  inferInstanceAs (Decidable (_ ∨ _))

/-- The deadline of the timer duty for what is in the heap. -/
def lowerTo (deadline : Nat) : List (Nat × Nat) → Nat
  | [] => deadline
  | (time, _) :: _ => min deadline time

section

variable [DecidableEq S] [DecidableEq T]

/-- Put a `Sleep` in another place. -/
def State.setSleep (s : State S T W) (k : S) (pc : SleepPc W) : State S T W :=
  { s with sleep := Function.update s.sleep k pc }

/-- The locked section of `fire_timers`. -/
def State.fireTimers (s : State S T W) (t : T) (now : Nat) : State S T W :=
  let r := fireLoop now s.heap s.slots s.slot
  { s with
    heap := r.1
    slots := r.2.1
    slot := r.2.2.1
    deadline := lowerTo s.deadline r.1
    fire := Function.update s.fire t (.waking r.2.2.2) }

/-- When an action can be taken. -/
def guard (s : State S T W) : Action S T W → Prop
  | .pollFirst k _ _ => s.sleep k = .fresh
  | .list k => ∃ id waker, s.sleep k = .taken id waker
  | .poll k _ => ∃ id, s.sleep k = .waiting id
  | .store k => ∃ id waker, s.sleep k = .polled id waker
  | .pollAgain k => ∃ id, s.sleep k = .stored id
  | .drop k => s.sleep k = .fresh ∨ ∃ id, s.sleep k = .waiting id
  | .unlist k => ∃ id, s.sleep k = .dropping id
  | .start t => s.fire t = .idle
  | .fire t _ => s.fire t = .polling
  | .wake t => ∃ woken, s.fire t = .waking woken

/-- `time` is the `at` of each `Sleep`. -/
def next (time : S → Nat) (s : State S T W) : Action S T W → State S T W
  | .pollFirst k waker now =>
      if now ≥ time k then s
      else { s.setSleep k (.taken s.seq waker) with seq := s.seq + 1 }
  | .list k =>
      match s.sleep k with
      | .taken id waker =>
          { s.setSleep k (.waiting id) with
            heap := s.heap.orderedInsert before (time k, id)
            slots := Function.update s.slots id true
            slot := Function.update s.slot id
              { fired := false
                waker := some ⟨k, waker⟩ }
            deadline := min s.deadline (time k) }
      | _ => s
  | .poll k waker =>
      match s.sleep k with
      | .waiting id =>
          if (s.slot id).fired = true then s else s.setSleep k (.polled id waker)
      | _ => s
  | .store k =>
      match s.sleep k with
      | .polled id waker =>
          { s.setSleep k (.stored id) with
            slot := Function.update s.slot id { s.slot id with waker := some ⟨k, waker⟩ } }
      | _ => s
  | .pollAgain k =>
      match s.sleep k with
      | .stored id => s.setSleep k (.waiting id)
      | _ => s
  | .drop k =>
      match s.sleep k with
      | .waiting id =>
          { s.setSleep k (.dropping id) with
            slot := Function.update s.slot id { s.slot id with waker := none } }
      | .fresh => s.setSleep k .dropped
      | _ => s
  | .unlist k =>
      match s.sleep k with
      | .dropping id =>
          { s.setSleep k .dropped with slots := Function.update s.slots id false }
      | _ => s
  | .start t =>
      { s with
        deadline := NEVER
        fire := Function.update s.fire t .polling }
  | .fire t now => s.fireTimers t now
  | .wake t =>
      match s.fire t with
      | .waking (_ :: woken) => { s with fire := Function.update s.fire t (.waking woken) }
      | .waking [] => { s with fire := Function.update s.fire t .idle }
      | _ => s

/-- Nobody sleeps yet. -/
def init (s : State S T W) : Prop :=
  s.heap = [] ∧ (∀ id, s.slots id = false) ∧ (∀ id, (s.slot id).waker = none) ∧ s.seq = 0 ∧
  s.deadline = NEVER ∧ (∀ k, s.sleep k = .fresh) ∧ ∀ t, s.fire t = .idle

/-- Timers as a guarded transition system. -/
def system (time : S → Nat) : System (State S T W) (Action S T W) where
  init := init
  guard := guard
  next := next time

end

/-- The wakers the thread has collected and not invoked. -/
def FirePc.collected : FirePc S W → List (Registered S W)
  | .waking woken => woken
  | .idle | .polling => []

/-- The step invokes a waker that the `Sleep` has registered. -/
def Wakes (s : State S T W) (k : S) : Action S T W → Prop
  | .wake t => ∃ r, (s.fire t).collected.head? = some r ∧ r.sleep = k
  | _ => False

/-- The slot of a `Sleep` that may still be woken. -/
def SleepPc.waits : SleepPc W → Option Nat
  | .waiting id | .polled id _ | .stored id => some id
  | .fresh | .taken _ _ | .dropping _ | .dropped => none

/-- A waker in a slot is that of a `Sleep` that waits there. -/
def Owned (s : State S T W) : Prop :=
  ∀ id r, (s.slot id).waker = some r → (s.sleep r.sleep).waits = some id

/-- Nothing of the `Sleep` is left that somebody could wake. -/
def Gone (s : State S T W) (k : S) : Prop :=
  s.sleep k = .dropped ∧ ∀ t, ∀ r ∈ (s.fire t).collected, r.sleep ≠ k

section

variable [DecidableEq S] [DecidableEq T] {time : S → Nat} {s : State S T W}

/-- No run from here wakes what the `Sleep` has registered. -/
def Silent (time : S → Nat) (s : State S T W) (k : S) : Prop :=
  ∀ as, (system time).Legal s as → (system time).Along (fun s a => ¬ Wakes s k a) s as

/-- A `Sleep` whose drop has returned is not woken any more. -/
def DroppedSilent (time : S → Nat) (s : State S T W) : Prop :=
  ∀ k, s.sleep k = .dropped → Silent time s k

/-- When a drop returns nobody has collected a waker of the `Sleep`. -/
def NotCollected (s : State S T W) : Action S T W → Prop
  | .drop k => s.sleep k = .fresh → ∀ t, ∀ r ∈ (s.fire t).collected, r.sleep ≠ k
  | .unlist k => ∀ t, ∀ r ∈ (s.fire t).collected, r.sleep ≠ k
  | _ => True

omit [DecidableEq S] [DecidableEq T] in
/-- `fire_timers` takes the wakers out of the slots. -/
theorem fireLoop_woken (now : Nat) (heap : List (Nat × Nat)) (slots : Nat → Bool)
    (slot : Nat → TimerSlot S W) :
    (∀ r ∈ (fireLoop now heap slots slot).2.2.2, ∃ id, (slot id).waker = some r) ∧
      ∀ id r, ((fireLoop now heap slots slot).2.2.1 id).waker = some r →
        (slot id).waker = some r := by
  induction heap generalizing slots slot with
  | nil => exact ⟨fun r hr => absurd hr List.not_mem_nil, fun _ _ h => h⟩
  | cons x heap ih =>
      rcases x with ⟨time, id⟩
      unfold fireLoop
      by_cases hlate : time > now
      · rw [if_pos hlate]
        exact ⟨fun r hr => absurd hr List.not_mem_nil, fun _ _ h => h⟩
      · rw [if_neg hlate]
        by_cases hlisted : slots id = true
        · rw [if_pos hlisted]
          -- What is left in the slots has been there before.
          have hleft : ∀ id' r, (Function.update slot id (⟨true, none⟩ : TimerSlot S W) id').waker =
              some r → (slot id').waker = some r := by
            intro id' r h
            by_cases hne : id' = id
            · rw [hne, Function.update_self] at h
              cases h
            · rwa [Function.update_of_ne hne] at h
          rcases ih (Function.update slots id false) (Function.update slot id ⟨true, none⟩) with
            ⟨hwoken, hkept⟩
          refine ⟨fun r hr => ?_, fun id' r h => hleft id' r (hkept id' r h)⟩
          rcases List.mem_append.mp hr with hr | hr
          · exact ⟨id, Option.mem_toList.mp hr⟩
          · rcases hwoken r hr with ⟨id', h⟩
            exact ⟨id', hleft id' r h⟩
        · rw [if_neg hlisted]
          exact ih slots slot

omit [DecidableEq T] in
/-- A `Sleep` that waits where it has waited changes nothing. -/
theorem owned_setSleep (h : Owned s) {s' : State S T W} {k : S} {pc : SleepPc W}
    (hsleep : s'.sleep = Function.update s.sleep k pc) (hslot : s'.slot = s.slot)
    (hw : pc.waits = (s.sleep k).waits) : Owned s' := by
  intro id r hr
  rw [hslot] at hr
  rw [hsleep]
  by_cases hk : r.sleep = k
  · rw [hk, Function.update_self, hw, ← hk]
    exact h id r hr
  · rw [Function.update_of_ne hk]
    exact h id r hr

omit [DecidableEq T] in
/-- A `Sleep` stores to its own slot, where its waker is if it has one. -/
theorem owned_setSlot (h : Owned s) {s' : State S T W} {k : S} {pc : SleepPc W} {id : Nat}
    {v : TimerSlot S W} (hsleep : s'.sleep = Function.update s.sleep k pc)
    (hslot : s'.slot = Function.update s.slot id v)
    (hv : ∀ r, v.waker = some r → r.sleep = k ∧ pc.waits = some id)
    (hold : ∀ id', (s.sleep k).waits = some id' → id' = id) : Owned s' := by
  intro id' r hr
  rw [hslot] at hr
  rw [hsleep]
  -- Its own slot has its own waker, and the others were not stored to.
  by_cases hid : id' = id
  · rw [hid, Function.update_self] at hr
    rcases hv r hr with ⟨hk, hw⟩
    rw [hk, Function.update_self, hid]
    exact hw
  · rw [Function.update_of_ne hid] at hr
    have hk : r.sleep ≠ k := by
      rintro rfl
      exact hid (hold id' (h id' r hr))
    rw [Function.update_of_ne hk]
    exact h id' r hr

theorem owned_next (h : Owned s) {a : Action S T W} (hg : guard s a) : Owned (next time s a) := by
  cases a with
  | pollFirst k waker now =>
      have hk : s.sleep k = .fresh := hg
      unfold next
      dsimp only
      split
      · exact h
      · exact owned_setSleep h rfl rfl (by rw [hk]; rfl)
  | list k =>
      rcases hg with ⟨id, waker, hk⟩
      unfold next
      simp only [hk]
      refine owned_setSlot h rfl rfl (fun r hr => ?_) fun id' hw => ?_
      · cases hr
        exact ⟨rfl, rfl⟩
      · -- It has not waited before.
        rw [hk] at hw
        cases hw
  | poll k waker =>
      rcases hg with ⟨id, hk⟩
      unfold next
      simp only [hk]
      split
      · exact h
      · exact owned_setSleep h rfl rfl (by rw [hk]; rfl)
  | store k =>
      rcases hg with ⟨id, waker, hk⟩
      unfold next
      simp only [hk]
      refine owned_setSlot h rfl rfl (fun r hr => ?_) fun id' hw => ?_
      · cases hr
        exact ⟨rfl, rfl⟩
      · rw [hk] at hw
        exact (Option.some.inj hw).symm
  | pollAgain k =>
      rcases hg with ⟨id, hk⟩
      unfold next
      simp only [hk]
      exact owned_setSleep h rfl rfl (by rw [hk]; rfl)
  | drop k =>
      rcases hg with hk | ⟨id, hk⟩
      · unfold next
        simp only [hk]
        exact owned_setSleep h rfl rfl (by rw [hk]; rfl)
      · unfold next
        simp only [hk]
        refine owned_setSlot h rfl rfl (fun r hr => by cases hr) fun id' hw => ?_
        rw [hk] at hw
        exact (Option.some.inj hw).symm
  | unlist k =>
      rcases hg with ⟨id, hk⟩
      unfold next
      simp only [hk]
      exact owned_setSleep h rfl rfl (by rw [hk]; rfl)
  | start t => exact h
  | fire t now => exact fun id r hr => h id r ((fireLoop_woken now _ _ _).2 id r hr)
  | wake t =>
      unfold next
      dsimp only
      split <;> exact h

/-- A drop that has returned has returned. -/
theorem dropped_next {a : Action S T W} (hg : guard s a) {k : S} (hk : s.sleep k = .dropped) :
    (next time s a).sleep k = .dropped := by
  -- A `Sleep` that moves is in another place than `dropped`, so it is another one.
  have hother : ∀ k' pc pc', s.sleep k' = pc → pc ≠ .dropped →
      Function.update s.sleep k' pc' k = .dropped := by
    rintro k' pc pc' rfl hne
    have hkk : k ≠ k' := by
      rintro rfl
      exact hne hk
    rw [Function.update_of_ne hkk]
    exact hk
  -- Nothing is done to a dropped `Sleep`.
  cases a with
  | pollFirst k' waker now =>
      unfold next
      dsimp only
      split
      · exact hk
      · exact hother k' _ _ hg nofun
  | list k' | store k' =>
      rcases hg with ⟨id, waker, hk'⟩
      unfold next
      simp only [hk']
      exact hother k' _ _ hk' nofun
  | poll k' waker =>
      rcases hg with ⟨id, hk'⟩
      unfold next
      simp only [hk']
      split
      · exact hk
      · exact hother k' _ _ hk' nofun
  | pollAgain k' | unlist k' =>
      rcases hg with ⟨id, hk'⟩
      unfold next
      simp only [hk']
      exact hother k' _ _ hk' nofun
  | drop k' =>
      rcases hg with hk' | ⟨id, hk'⟩ <;>
        · unfold next
          simp only [hk']
          exact hother k' _ _ hk' nofun
  | start t | fire t now => exact hk
  | wake t =>
      unfold next
      dsimp only
      split <;> exact hk

/-- Wakers are collected from the slots of those that wait. -/
theorem collected_next (h : Owned s) {a : Action S T W} {t : T} {r : Registered S W}
    (hr : r ∈ ((next time s a).fire t).collected) :
    r ∈ (s.fire t).collected ∨ (s.sleep r.sleep).waits ≠ none := by
  -- A thread that moves drops wakers from its list, or has collected new ones.
  have hupdate : ∀ t' pc, r ∈ (Function.update s.fire t' pc t).collected →
      r ∈ (s.fire t).collected ∨ t' = t ∧ r ∈ pc.collected := by
    intro t' pc hr
    by_cases ht : t = t'
    · rw [ht, Function.update_self] at hr
      exact .inr ⟨ht.symm, hr⟩
    · rw [Function.update_of_ne ht] at hr
      exact .inl hr
  cases a with
  | start t' =>
      rcases hupdate t' _ hr with hr | ⟨_, hr⟩
      · exact .inl hr
      · exact absurd hr List.not_mem_nil
  | fire t' now =>
      rcases hupdate t' _ hr with hr | ⟨_, hr⟩
      · exact .inl hr
      · rcases (fireLoop_woken now s.heap s.slots s.slot).1 r hr with ⟨id, hid⟩
        refine .inr ?_
        rw [h id r hid]
        nofun
  | wake t' =>
      unfold next at hr
      dsimp only at hr
      split at hr
      · next x woken hf =>
          rcases hupdate t' _ hr with hr | ⟨rfl, hx⟩
          · exact .inl hr
          · rw [hf]
            exact .inl (List.mem_cons_of_mem x hx)
      · rcases hupdate t' _ hr with hr | ⟨_, hr⟩
        · exact .inl hr
        · exact absurd hr List.not_mem_nil
      · exact .inl hr
  | list k | store k | pollAgain k | unlist k | drop k =>
      unfold next at hr
      dsimp only at hr
      split at hr <;> exact .inl hr
  | pollFirst k waker now =>
      unfold next at hr
      dsimp only at hr
      split at hr <;> exact .inl hr
  | poll k waker =>
      unfold next at hr
      dsimp only at hr
      repeat' split at hr
      all_goals exact .inl hr

/-- What is gone stays gone. -/
theorem gone_next (h : Owned s) {a : Action S T W} (hg : guard s a) {k : S} (hk : Gone s k) :
    Gone (next time s a) k := by
  refine ⟨dropped_next hg hk.1, fun t r hr => ?_⟩
  rcases collected_next h hr with hr | hr
  · exact hk.2 t r hr
  · rintro rfl
    rw [hk.1] at hr
    exact hr rfl

/-- A `Sleep` of which nothing is left is silent. -/
theorem silent_of_gone (h : Owned s) {k : S} (hk : Gone s k) : Silent time s k := by
  intro as
  induction as generalizing s with
  | nil => exact fun _ => trivial
  | cons a as ih =>
      intro hl
      refine ⟨?_, ih (owned_next h hl.1) (gone_next h hl.1 hk) hl.2⟩
      intro hw
      cases a with
      | wake t =>
          rcases hw with ⟨r, hr, hx⟩
          exact hk.2 t r (List.mem_of_mem_head? hr) hx
      | _ => exact hw

/-- A waker that has been collected is going to be invoked. -/
theorem not_silent {k : S} {t : T} {r : Registered S W} (hr : r ∈ (s.fire t).collected)
    (hk : r.sleep = k) : ¬ Silent time s k := by
  have hpc : s.fire t = .waking (s.fire t).collected := by
    cases hf : s.fire t with
    | waking woken => rfl
    | idle | polling =>
        rw [hf] at hr
        exact absurd hr List.not_mem_nil
  -- The thread invokes what comes before it, one by one.
  generalize hw : (s.fire t).collected = woken at hr hpc
  induction woken generalizing s with
  | nil => exact absurd hr List.not_mem_nil
  | cons x woken ih =>
      intro hs
      have hg : guard s (.wake t) := ⟨_, hpc⟩
      by_cases hx : x = r
      · have hquiet := hs [.wake t] ⟨hg, trivial⟩
        refine hquiet.1 ⟨r, ?_, hk⟩
        rw [hw, hx]
        rfl
      · have hnext : (next time s (.wake t)).fire t = .waking woken := by
          unfold next
          simp only [hpc]
          exact Function.update_self ..
        have hmem := (List.mem_cons.mp hr).resolve_left fun he => hx he.symm
        refine ih (s := next time s (.wake t)) (by rw [hnext]; rfl) hmem hnext ?_
        exact fun as hl => (hs (.wake t :: as) ⟨hg, hl⟩).2

omit [DecidableEq S] [DecidableEq T] in
theorem owned_init (hi : init s) : Owned s := by
  intro id r hr
  rw [hi.2.2.1] at hr
  cases hr

/-- The `Sleep`s that a step drops. -/
theorem dropped_of_next {a : Action S T W} {k : S} (hk : (next time s a).sleep k = .dropped) :
    s.sleep k = .dropped ∨ (a = .drop k ∧ s.sleep k = .fresh) ∨ a = .unlist k := by
  -- A `Sleep` is put in the place `dropped` by two steps of its own drop and no other.
  have hupdate : ∀ k' pc, pc ≠ .dropped → Function.update s.sleep k' pc k = .dropped →
      s.sleep k = .dropped := by
    intro k' pc hne hx
    by_cases hkk : k = k'
    · rw [hkk, Function.update_self] at hx
      exact absurd hx hne
    · rwa [Function.update_of_ne hkk] at hx
  have hdropped : ∀ k', Function.update s.sleep k' .dropped k = .dropped →
      k = k' ∨ s.sleep k = .dropped := by
    intro k' hx
    by_cases hkk : k = k'
    · exact .inl hkk
    · rw [Function.update_of_ne hkk] at hx
      exact .inr hx
  -- Every other step writes a place that is not `dropped`, or no place.
  cases a with
  | drop k' =>
      unfold next at hk
      dsimp only at hk
      split at hk
      · exact .inl (hupdate k' (.dropping _) nofun hk)
      · next hf =>
          rcases hdropped k' hk with rfl | hx
          · exact .inr (.inl ⟨rfl, hf⟩)
          · exact .inl hx
      · exact .inl hk
  | unlist k' =>
      unfold next at hk
      dsimp only at hk
      split at hk
      · rcases hdropped k' hk with rfl | hx
        · exact .inr (.inr rfl)
        · exact .inl hx
      · exact .inl hk
  | pollFirst k' waker now =>
      unfold next at hk
      dsimp only at hk
      split at hk
      · exact .inl hk
      · exact .inl (hupdate k' (.taken _ _) nofun hk)
  | list k' | pollAgain k' =>
      unfold next at hk
      dsimp only at hk
      split at hk
      · exact .inl (hupdate k' (.waiting _) nofun hk)
      · exact .inl hk
  | store k' =>
      unfold next at hk
      dsimp only at hk
      split at hk
      · exact .inl (hupdate k' (.stored _) nofun hk)
      · exact .inl hk
  | poll k' waker =>
      unfold next at hk
      dsimp only at hk
      repeat' split at hk
      · exact .inl hk
      · exact .inl (hupdate k' (.polled _ _) nofun hk)
      · exact .inl hk
  | start t | fire t now => exact .inl hk
  | wake t =>
      unfold next at hk
      dsimp only at hk
      split at hk <;> exact .inl hk

/-- A drop returns and leaves the threads alone. -/
theorem fire_drop (k : S) :
    (next time s (.drop k : Action S T W)).fire = s.fire ∧
      (next time s (.unlist k : Action S T W)).fire = s.fire := by
  unfold next
  dsimp only
  constructor <;> split <;> rfl

/-- Dropped `Sleep`s are silent in exactly the runs in which no drop returns with
    a waker collected. -/
theorem dropped_silent_iff (time : S → Nat) (s : State S T W) (as : List (Action S T W))
    (hi : (system time).init s) (hl : (system time).Legal s as) :
    (system time).Throughout (DroppedSilent time) s as ↔ (system time).Along NotCollected s as := by
  refine System.throughout_iff_along _ (C := NotCollected)
    (I := fun s => Owned s ∧ ∀ k, s.sleep k = .dropped → Gone s k) ?_ ?_ ?_ as s ?_ hl
  · exact fun s h k hk => silent_of_gone h.1 (h.2 k hk)
  · intro s a h hg hc
    refine ⟨owned_next h.1 hg, fun k hk => ?_⟩
    -- It was dropped before, or its drop returns in this step, with or without a slot.
    rcases dropped_of_next hk with hold | ⟨rfl, hf⟩ | rfl
    · exact gone_next h.1 hg (h.2 k hold)
    · refine ⟨hk, fun t r hr => hc hf t r ?_⟩
      rwa [show (system time).next s (.drop k) = next time s (.drop k) from rfl,
        (fire_drop k).1] at hr
    · refine ⟨hk, fun t r hr => hc t r ?_⟩
      rwa [show (system time).next s (.unlist k) = next time s (.unlist k) from rfl,
        (fire_drop k).2] at hr
  · -- The thread that has collected the waker is going to invoke it.
    intro s a _ hg hc h
    have hdone : ∃ k, (next time s a).sleep k = .dropped ∧ (next time s a).fire = s.fire ∧
        ∃ t, ∃ r ∈ (s.fire t).collected, r.sleep = k := by
      cases a with
      | drop k =>
          unfold NotCollected at hc
          push Not at hc
          rcases hc with ⟨hf, t, r, hr, hx⟩
          refine ⟨k, ?_, (fire_drop k).1, t, r, hr, hx⟩
          unfold next
          simp only [hf]
          exact Function.update_self ..
      | unlist k =>
          unfold NotCollected at hc
          push Not at hc
          rcases hc with ⟨t, r, hr, hx⟩
          rcases hg with ⟨id, hk⟩
          refine ⟨k, ?_, (fire_drop k).2, t, r, hr, hx⟩
          unfold next
          simp only [hk]
          exact Function.update_self ..
      | _ => exact absurd trivial hc
    rcases hdone with ⟨k, hk, hfire, t, r, hr, hx⟩
    refine not_silent (s := next time s a) (t := t) (r := r) ?_ hx (h k hk)
    rw [hfire]
    exact hr
  · refine ⟨owned_init hi, fun k hk => ?_⟩
    rw [hi.2.2.2.2.2.1] at hk
    cases hk

end

/-- Nobody sleeps yet. -/
def new : State Unit Unit Unit where
  heap := []
  slots _ := false
  slot _ :=
    { fired := false
      waker := none }
  seq := 0
  deadline := NEVER
  sleep _ := .fresh
  fire _ := .idle

theorem new_init : (system fun _ => 10).init new :=
  ⟨rfl, fun _ => rfl, fun _ => rfl, rfl, rfl, fun _ => rfl, fun _ => rfl⟩

/-- A `Sleep` that is dropped before its time. -/
def droppedEarly : List (Action Unit Unit Unit) :=
  [.pollFirst () () 0, .list (), .drop (), .unlist (), .start (), .fire () 10, .wake ()]

theorem dropped_silent_iff_early :
    (system fun _ => 10).Throughout (DroppedSilent fun _ => 10) new droppedEarly := by
  have hl : (system fun _ => 10).Legal new droppedEarly :=
    ⟨rfl, ⟨_, _, rfl⟩, .inr ⟨_, rfl⟩, ⟨_, rfl⟩, rfl, rfl, ⟨_, rfl⟩, trivial⟩
  refine (dropped_silent_iff (fun _ => 10) new droppedEarly new_init hl).mpr ?_
  refine ⟨trivial, trivial, nofun, ?_, trivial, trivial, trivial, trivial⟩
  exact fun _ _ hr => absurd hr List.not_mem_nil

/-- A `Sleep` that is dropped when its waker has been collected. -/
def droppedLate : List (Action Unit Unit Unit) :=
  [.pollFirst () () 0, .list (), .start (), .fire () 10, .drop (), .unlist ()]

/-- The `Sleep` is woken after its drop has returned. -/
theorem dropped_woken :
    (system fun _ => 10).init new ∧
      (system fun _ => 10).Legal new (droppedLate ++ [.wake ()]) ∧
      ((system fun _ => 10).run new droppedLate).sleep () = .dropped ∧
      Wakes ((system fun _ => 10).run new droppedLate) () (.wake ()) ∧
      ¬ (system fun _ => 10).Throughout (DroppedSilent fun _ => 10) new droppedLate := by
  have hl : (system fun _ => 10).Legal new (droppedLate ++ [.wake ()]) :=
    ⟨rfl, ⟨_, _, rfl⟩, rfl, rfl, .inr ⟨_, rfl⟩, ⟨_, rfl⟩, ⟨_, rfl⟩, trivial⟩
  have hw : Wakes ((system fun _ => 10).run new droppedLate) () (.wake ()) :=
    ⟨⟨(), ()⟩, rfl, rfl⟩
  refine ⟨new_init, hl, rfl, hw, fun h => ?_⟩
  have hs := System.throughout_run _ _ _ h () rfl
  exact (hs [.wake ()] ⟨⟨_, rfl⟩, trivial⟩).1 hw

end Timers

end Duty

end Cmpth

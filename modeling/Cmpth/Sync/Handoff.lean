import Cmpth.Sync.Mutex

/-!
# Ownership of the Spin-Locked Mutex

The mutex is `locked` exactly while it is somebody's: a ULT has the guard, or a
waiter has been popped for it and not yet resumed, or a condvar's wait has given
its guard up and the callback has still to unlock. There is only one of these at
a time, and an unlock turns it into the next one, so that nobody can come in
between.

The queue of the mutex, what is on its way from it, and those who have got the
mutex are together the queue as it was filled. For a condvar it is the same
with those that were taken out.

## Main definitions

* `Owner`: Whose the mutex is.
* `Inv`: The invariant.
* `Contract`: What the mutex and its condvars promise in each state.

## Theorems

* `Fits.none`, `Fits.awake`, `Fits.mutex`, `Fits.condvar`, `Inv.at_mem`: What a ULT's place says of
  it.
* `Fits.moved`: Whoever is suspended may be in somebody's hands, and then in a run queue.
* `Inv.nowhere`: A ULT that is not suspended is in no queue.
* `condvar_ne`, `hand_ne`, `mutex_ne`: The places are different.
* `unlock_pc`, `unlock_releasing`, `unlock_histories`: What an unlock leaves alone.
* `Inv.unlocked`: The section of `mutex_unlock`, once whoever had the mutex has given it up.
* `Inv.enqueued`: A ULT joins a queue.
* `inv_lock`, `inv_unlock`, `inv_release`, `inv_notify`, `inv_notifyOne`, `inv_notifyAll`: The
  steps, one by one.
* `inv_wait`: The guard is the callback's until the mutex is unlocked.
* `Inv.pushed`: Whoever is on the way from a queue stays on the way.
* `inv_resume`: A ULT that is resumed has its guard, or goes on to lock again.
* `inv_next`: Every step keeps the invariant.
* `inv_init`, `inv_reach`: The invariant holds in every state.
* `histories_next`: What a step puts into a condvar's queue, or takes out of it, is last.
* `taken_next`, `taken_run`: Notifies take waits out in the order they came.
* `histories_run`: The histories of a run.
* `Inv.contract`: The invariant gives the promises.
* `mutex_contract`: The promises hold in every state, and no notify is missed.
* `mutex_waitBehind`: The wait is taken out by a notify of whoever has the mutex now, and by no
  other.
-/

namespace Cmpth

namespace Mutex

variable {T C : Type*}

/-- Whose the mutex is. -/
inductive Owner (T : Type*) where
  | free
  | guard (t : T)
  /-- It was popped from the queue, and is not yet resumed. -/
  | handed (t : T)
  /-- It waits on a condvar, and its callback has still to unlock. -/
  | callback (t : T)

/-- What has left the queue and has not got its guard. -/
def Owner.handoff : Owner T → List T
  | .handed t => [t]
  | .free | .guard _ | .callback _ => []

/-- The unlock that is still to be made, in a callback. -/
def Owner.callbacks : Owner T → List T
  | .callback t => [t]
  | .free | .guard _ | .handed _ => []

/-- The mutex is somebody's. -/
def Owner.taken : Owner T → Bool
  | .free => false
  | .guard _ | .handed _ | .callback _ => true

/-- A suspended ULT is in a queue, or on its way from it. -/
def Fits : Pc C → Option (Spot C) → Prop
  | .out, p | .holds, p | .relock, p => p = none
  | .locking, p => p = some .mutex ∨ p = some .hand ∨ p = some .run
  | .waiting c, p => p = some (.condvar c) ∨ p = some .hand ∨ p = some .run

/-- The ULT has been popped from the mutex's queue. -/
def Popped (p : Pc C) (x : Option (Spot C)) : Prop :=
  p = .locking ∧ (x = some .hand ∨ x = some .run)

/-- The mutex is the owner's. -/
structure Owns (s : State T C) (place : T → Option (Spot C)) (o : Owner T) : Prop where
  holds : ∀ t, s.pc t = .holds ↔ o = .guard t
  popped : ∀ t, Popped (s.pc t) (place t) ↔ o = .handed t
  releasing : s.releasing = o.callbacks
  locked : s.locked = o.taken
  idle : o = .free → s.tokens .mutex = []

/-- The invariant of the mutex. -/
structure Inv (s : State T C) (place : T → Option (Spot C)) (o : Owner T) : Prop where
  placed : Placed s.tokens place
  fits : ∀ t, Fits (s.pc t) (place t)
  owns : Owns s place o
  fifo : s.arrivals = s.acquired ++ o.handoff ++ s.tokens .mutex
  entered : ∀ c, s.entered c = s.taken c ++ s.tokens (.condvar c)
  counts : ∀ t, s.queued t = s.resumed t + if (s.pc t).suspended then 1 else 0

variable {s : State T C} {place : T → Option (Spot C)} {o : Owner T} {t u : T} {c : C}
  {p : Pc C} {x : Spot C}

theorem Fits.none (h : Fits p none) : p.suspended = false := by
  cases p with
  | out | holds | relock => rfl
  | locking => rcases h with h | h | h <;> cases h
  | waiting c => rcases h with h | h | h <;> cases h

theorem Fits.awake (h : Fits p (some x)) : p.suspended = true := by
  cases p with
  | out | holds | relock => cases h
  | locking | waiting c => rfl

theorem Fits.mutex (h : Fits p (some .mutex)) : p = .locking := by
  cases p with
  | out | holds | relock => cases h
  | locking => rfl
  | waiting c => rcases h with h | h | h <;> cases h

theorem Fits.condvar (h : Fits p (some (.condvar c))) : p = .waiting c := by
  cases p with
  | out | holds | relock => cases h
  | locking => rcases h with h | h | h <;> cases h
  | waiting c' =>
      rcases h with h | h | h
      · cases h
        rfl
      · cases h
      · cases h

/-- Whoever is suspended may be in somebody's hands, and then in a run queue. -/
theorem Fits.moved (h : Fits p (some x)) : Fits p (some .hand) ∧ Fits p (some .run) := by
  cases p with
  | out | holds | relock => cases h
  | locking | waiting c => exact ⟨.inr (.inl rfl), .inr (.inr rfl)⟩

section

variable [DecidableEq T] [DecidableEq C]

omit [DecidableEq T] [DecidableEq C] in
theorem Inv.at_mem (h : Inv s place o) : t ∈ s.tokens x ↔ place t = some x :=
  h.placed.mem

omit [DecidableEq T] [DecidableEq C] in
/-- A ULT that is not suspended is in no queue. -/
theorem Inv.nowhere (h : Inv s place o) (hp : (s.pc t).suspended = false) : place t = none := by
  cases hx : place t with
  | none => rfl
  | some x =>
      have hf := h.fits t
      rw [hx] at hf
      rw [hf.awake] at hp
      cases hp

omit [DecidableEq C] in
theorem condvar_ne (c : C) : Spot.condvar c ≠ .mutex :=
  nofun

omit [DecidableEq C] in
theorem hand_ne (c : C) : Spot.condvar c ≠ .hand ∧ Spot.condvar c ≠ .run :=
  ⟨nofun, nofun⟩

omit [DecidableEq C] in
theorem mutex_ne : (.mutex : Spot C) ≠ .hand ∧ (.mutex : Spot C) ≠ .run :=
  ⟨nofun, nofun⟩

omit [DecidableEq T] in
theorem unlock_pc (s : State T C) : s.unlock.pc = s.pc := by
  unfold State.unlock
  split <;> rfl

omit [DecidableEq T] in
theorem unlock_releasing (s : State T C) : s.unlock.releasing = s.releasing := by
  unfold State.unlock
  split <;> rfl

/-- The section of `mutex_unlock`, once whoever had the mutex has given it up. -/
theorem Inv.unlocked (h : Inv s place o) {pc' : T → Pc C} {r : List T}
    (hfits : ∀ t, Fits (pc' t) (place t)) (hholds : ∀ t, pc' t ≠ .holds)
    (hpopped : ∀ t, ¬ Popped (pc' t) (place t)) (hr : r = []) (hlocked : s.locked = true)
    (hfifo : s.arrivals = s.acquired ++ s.tokens .mutex)
    (hcounts : ∀ t, s.queued t = s.resumed t + if (pc' t).suspended then 1 else 0) :
    ∃ place' o', Inv { s.unlock with pc := pc', releasing := r } place' o' := by
  subst hr
  unfold State.unlock
  split
  next hq =>
    refine ⟨place, .free, h.placed, hfits, ?_, ?_, h.entered, hcounts⟩
    · exact ⟨fun t => iff_of_false (hholds t) nofun, fun t => iff_of_false (hpopped t) nofun,
        rfl, rfl, fun _ => hq⟩
    · rw [hfifo]
      exact congrArg (· ++ _) (List.append_nil _).symm
  next u rest hq =>
    -- The mutex goes to the first in its queue.
    have hu : place u = some .mutex := h.at_mem.mp (by rw [hq]; exact List.mem_cons_self)
    have hfu := hfits u
    rw [hu] at hfu
    refine ⟨Function.update place u (some .hand), .handed u,
      h.placed.moveHead hq nofun, fun t => ?_, ?_, ?_,
      fun c => h.entered c, hcounts⟩
    · by_cases ht : t = u
      · rw [ht, Function.update_self]
        exact hfu.moved.1
      · rw [Function.update_of_ne ht]
        exact hfits t
    · refine ⟨fun t => iff_of_false (hholds t) nofun, fun t => ?_, rfl, hlocked, nofun⟩
      by_cases ht : t = u
      · rw [ht, Function.update_self]
        exact iff_of_true ⟨hfu.mutex, .inl rfl⟩ rfl
      · rw [Function.update_of_ne ht]
        exact iff_of_false (hpopped t) fun he => ht (Owner.handed.inj he).symm
    · change s.arrivals = s.acquired ++ [u] ++ rest
      rw [hfifo, hq, List.append_assoc]
      rfl

/-- A ULT joins a queue. -/
theorem Inv.enqueued (h : Inv s place o) (hp : (s.pc t).suspended = false)
    (hfit : Fits p (some x)) (hx : x = .mutex ∨ ∃ c, x = .condvar c) :
    Placed (s.enqueue t x p).tokens (Function.update place t (some x)) ∧
      (∀ u, Fits ((s.enqueue t x p).pc u) (Function.update place t (some x) u)) ∧
      (∀ u, Popped ((s.enqueue t x p).pc u) (Function.update place t (some x) u) ↔
        Popped (s.pc u) (place u)) ∧
      ∀ u, (s.enqueue t x p).queued u =
        s.resumed u + if ((s.enqueue t x p).pc u).suspended then 1 else 0 := by
  -- A running ULT has no token, so it gets the one in the queue.
  have hnone := h.nowhere hp
  refine ⟨h.placed.append hnone x, fun u => ?_, fun u => ?_, fun u => ?_⟩
  · change Fits (Function.update s.pc t p u) _
    by_cases hu : u = t
    · rw [hu, Function.update_self, Function.update_self]
      exact hfit
    · rw [Function.update_of_ne hu, Function.update_of_ne hu]
      exact h.fits u
  · change Popped (Function.update s.pc t p u) _ ↔ _
    by_cases hu : u = t
    · rw [hu, Function.update_self, Function.update_self, hnone]
      refine iff_of_false (fun hpop => ?_) (fun hpop => ?_)
      · rcases hx with rfl | ⟨c, rfl⟩ <;> rcases hpop.2 with he | he <;> cases he
      · rcases hpop.2 with he | he <;> cases he
    · rw [Function.update_of_ne hu, Function.update_of_ne hu]
  · change Function.update s.queued t _ u = _ + if (Function.update s.pc t p u).suspended then 1
      else 0
    have hcount := h.counts u
    by_cases hu : u = t
    · subst hu
      rw [hp] at hcount
      rw [Function.update_self, Function.update_self, hfit.awake, hcount]
      rfl
    · rw [Function.update_of_ne hu, Function.update_of_ne hu]
      exact hcount

theorem inv_lock (h : Inv s place o) (hg : guard s (.lock t)) :
    ∃ place' o', Inv (next s (.lock t)) place' o' := by
  -- Who locks is running, first or after its wait on a condvar.
  have hp : (s.pc t).suspended = false := by
    rcases hg with hg | hg <;> rw [hg] <;> rfl
  have hholds : s.pc t ≠ .holds := by
    rcases hg with hg | hg <;> rw [hg] <;> nofun
  change ∃ place' o', Inv (if s.locked = true then _ else _) place' o'
  split
  next hlocked =>
    obtain ⟨hplaced, hfits, hpopped, hcounts⟩ :=
      h.enqueued hp (p := .locking) (x := .mutex) (.inl rfl) (.inl rfl)
    refine ⟨_, o, hplaced, hfits, ⟨fun u => ?_, fun u => ?_, h.owns.releasing, h.owns.locked,
      fun ho => ?_⟩, ?_, fun c => ?_, hcounts⟩
    · rw [← h.owns.holds u]
      change Function.update s.pc t .locking u = _ ↔ _
      by_cases hu : u = t
      · rw [hu, Function.update_self]
        exact iff_of_false nofun hholds
      · rw [Function.update_of_ne hu]
    · rw [← h.owns.popped u]
      exact hpopped u
    · rw [h.owns.locked, ho] at hlocked
      cases hlocked
    · change s.arrivals ++ [t] = s.acquired ++ o.handoff ++
        Function.update s.tokens .mutex (s.tokens .mutex ++ [t]) .mutex
      rw [Function.update_self, h.fifo, List.append_assoc]
    · change s.entered c = s.taken c ++
        Function.update s.tokens .mutex (s.tokens .mutex ++ [t]) (.condvar c)
      rw [Function.update_of_ne (condvar_ne c)]
      exact h.entered c
  next hfree =>
    have ho : o = .free := by
      cases o with
      -- A mutex that is not locked is nobody's.
      | free => rfl
      | guard v | handed v | callback v => exact absurd h.owns.locked hfree
    subst ho
    refine ⟨place, .guard t, h.placed, fun u => ?_, ⟨fun u => ?_, fun u => ?_,
      h.owns.releasing, rfl, nofun⟩, h.fifo, h.entered, fun u => ?_⟩
    · change Fits (Function.update s.pc t .holds u) _
      by_cases hu : u = t
      · rw [hu, Function.update_self]
        exact h.nowhere hp
      · rw [Function.update_of_ne hu]
        exact h.fits u
    · change Function.update s.pc t .holds u = _ ↔ _
      by_cases hu : u = t
      · rw [hu, Function.update_self]
        exact iff_of_true rfl rfl
      · rw [Function.update_of_ne hu, h.owns.holds u]
        exact iff_of_false nofun fun he => hu (Owner.guard.inj he).symm
    · change Popped (Function.update s.pc t .holds u) _ ↔ _
      by_cases hu : u = t
      · rw [hu, Function.update_self]
        exact iff_of_false (fun hpop => nomatch hpop.1) nofun
      · rw [Function.update_of_ne hu, h.owns.popped u]
        exact iff_of_false nofun nofun
    · change _ = _ + if (Function.update s.pc t .holds u).suspended then 1 else 0
      have hcount := h.counts u
      by_cases hu : u = t
      · subst hu
        rw [hp] at hcount
        rw [Function.update_self]
        exact hcount
      · rw [Function.update_of_ne hu]
        exact hcount

theorem inv_unlock (h : Inv s place o) (hg : guard s (.unlock t)) :
    ∃ place' o', Inv (next s (.unlock t)) place' o' := by
  have hpc : s.pc t = .holds := hg
  -- The mutex was this ULT's, and nobody else holds it.
  have ho := (h.owns.holds t).mp hpc
  subst ho
  have hr : s.unlock.releasing = [] := (unlock_releasing s).trans h.owns.releasing
  refine h.unlocked (fun u => ?_) (fun u => ?_) (fun u => ?_) hr h.owns.locked ?_ (fun u => ?_)
  · by_cases hu : u = t
    · rw [hu, Function.update_self]
      exact h.nowhere (by rw [hpc]; rfl)
    · rw [Function.update_of_ne hu]
      exact h.fits u
  · by_cases hu : u = t
    · rw [hu, Function.update_self]
      nofun
    · rw [Function.update_of_ne hu]
      exact fun hh => hu (Owner.guard.inj ((h.owns.holds u).mp hh)).symm
  · by_cases hu : u = t
    · rw [hu, Function.update_self]
      exact fun hpop => nomatch hpop.1
    · rw [Function.update_of_ne hu, h.owns.popped u]
      nofun
  · rw [h.fifo]
    exact congrArg (· ++ _) (List.append_nil _)
  · have hcount := h.counts u
    by_cases hu : u = t
    · subst hu
      rw [hpc] at hcount
      rw [Function.update_self]
      exact hcount
    · rw [Function.update_of_ne hu]
      exact hcount

/-- The guard is the callback's until the mutex is unlocked. -/
theorem inv_wait (h : Inv s place o) (hg : guard s (.wait t c)) :
    ∃ place' o', Inv (next s (.wait t c)) place' o' := by
  have hpc : s.pc t = .holds := hg
  have ho := (h.owns.holds t).mp hpc
  subst ho
  obtain ⟨hplaced, hfits, hpopped, hcounts⟩ :=
    h.enqueued (t := t) (by rw [hpc]; rfl) (p := .waiting c) (x := .condvar c) (.inl rfl)
      (.inr ⟨c, rfl⟩)
  -- The callback still has the mutex, so it is not free meanwhile.
  refine ⟨_, .callback t, hplaced, hfits, ⟨fun u => ?_, fun u => ?_, ?_, h.owns.locked, nofun⟩,
    ?_, fun c' => ?_, hcounts⟩
  · change Function.update s.pc t (.waiting c) u = _ ↔ _
    by_cases hu : u = t
    · rw [hu, Function.update_self]
      exact iff_of_false nofun nofun
    · rw [Function.update_of_ne hu, h.owns.holds u]
      exact iff_of_false (fun he => hu (Owner.guard.inj he).symm) nofun
  · refine (hpopped u).trans ?_
    rw [h.owns.popped u]
    exact iff_of_false nofun nofun
  · exact congrArg (t :: ·) h.owns.releasing
  · change s.arrivals = s.acquired ++ [] ++
      Function.update s.tokens (.condvar c) (s.tokens (.condvar c) ++ [t]) .mutex
    rw [Function.update_of_ne (condvar_ne c).symm]
    exact h.fifo
  · change Function.update s.entered c (s.entered c ++ [t]) c' =
      s.taken c' ++ Function.update s.tokens (.condvar c) (s.tokens (.condvar c) ++ [t])
        (.condvar c')
    by_cases hc : c' = c
    · rw [hc, Function.update_self, Function.update_self, h.entered c, List.append_assoc]
    · rw [Function.update_of_ne hc,
        Function.update_of_ne fun he => hc (Spot.condvar.inj he)]
      exact h.entered c'

theorem inv_release (h : Inv s place o) (hg : guard s (.release t)) :
    ∃ place' o', Inv (next s (.release t)) place' o' := by
  have ht : t ∈ s.releasing := hg
  rw [h.owns.releasing] at ht
  -- The releaser is in its callback, and has the mutex until it ends.
  cases o with
  | free | guard v | handed v => cases ht
  | callback v =>
      have hv : t = v := List.mem_singleton.mp ht
      subst hv
      have hr : s.releasing = [t] := h.owns.releasing
      change ∃ place' o', Inv { s.unlock with pc := s.unlock.pc, releasing := _ } place' o'
      rw [unlock_pc]
      refine h.unlocked h.fits (fun u => ?_) (fun u => ?_) ?_ h.owns.locked ?_ h.counts
      · rw [ne_eq, h.owns.holds u]
        nofun
      · rw [h.owns.popped u]
        nofun
      · rw [hr, List.erase_cons_head]
      · rw [h.fifo]
        exact congrArg (· ++ _) (List.append_nil _)

omit [DecidableEq T] [DecidableEq C] in
/-- Whoever is on the way from a queue stays on the way. -/
theorem Inv.pushed (h : Inv s place o) {f : Spot C → List T} {place' : T → Option (Spot C)}
    {a : C → List T} (hplaced : Placed f place')
    (hwhere : ∀ u, place' u = place u ∨ ((place u = some .hand ∨ ∃ c, place u = some (.condvar c)) ∧
      (place' u = some .run ∨ place' u = some .hand)))
    (hmutex : f .mutex = s.tokens .mutex)
    (hentered : ∀ c, s.entered c = a c ++ f (.condvar c)) :
    Inv { s with tokens := f, taken := a } place' o where
  placed := hplaced
  fits := by
    intro u
    rcases hwhere u with hu | ⟨hold, hnew⟩
    · rw [hu]
      exact h.fits u
    · have hf := h.fits u
      have hmoved : Fits (s.pc u) (some .hand) ∧ Fits (s.pc u) (some .run) := by
        rcases hold with hold | ⟨c, hold⟩ <;> rw [hold] at hf <;> exact hf.moved
      rcases hnew with hnew | hnew <;> rw [hnew]
      · exact hmoved.2
      · exact hmoved.1
  owns := by
    refine ⟨h.owns.holds, fun u => ?_, h.owns.releasing, h.owns.locked, fun ho => ?_⟩
    · rw [← h.owns.popped u]
      rcases hwhere u with hu | ⟨hold, hnew⟩
      · rw [hu]
      · refine and_congr_right fun hpc => ?_
        rcases hold with hold | ⟨c, hold⟩
        · exact iff_of_true hnew.symm (.inl hold)
        · -- It waits on a condvar, not for the mutex.
          have hf := h.fits u
          rw [hold] at hf
          have hw := hf.condvar
          have hpc' : s.pc u = .locking := hpc
          rw [hpc'] at hw
          cases hw
    · exact hmutex.trans (h.owns.idle ho)
  fifo := h.fifo.trans (congrArg (_ ++ ·) hmutex.symm)
  entered := hentered
  counts := h.counts

theorem inv_notify (h : Inv s place o) (hg : guard s (.notify t)) :
    ∃ place' o', Inv (next s (.notify t)) place' o' := by
  have ht := h.at_mem.mp hg
  refine ⟨_, o, h.pushed (a := s.taken) (h.placed.move hg (y := .run) nofun) (fun u => ?_) ?_
    (fun c => ?_)⟩
  · by_cases hu : u = t
    · rw [hu, Function.update_self]
      exact .inr ⟨.inl ht, .inl rfl⟩
    · rw [Function.update_of_ne hu]
      exact .inl rfl
  · exact untouched nofun nofun
  · rw [untouched (hand_ne c).1 (hand_ne c).2]
    exact h.entered c

theorem inv_notifyOne (h : Inv s place o) : ∃ place' o', Inv (next s (.notifyOne c)) place' o' := by
  unfold next
  dsimp only
  split
  next => exact ⟨place, o, h⟩
  next t rest hq =>
    have ht : place t = some (.condvar c) :=
      h.at_mem.mp (by rw [hq]; exact List.mem_cons_self)
    refine ⟨_, o, h.pushed (h.placed.moveHead hq nofun) (fun u => ?_) ?_ (fun c' => ?_)⟩
    · by_cases hu : u = t
      · rw [hu, Function.update_self]
        exact .inr ⟨.inr ⟨c, ht⟩, .inl rfl⟩
      · rw [Function.update_of_ne hu]
        exact .inl rfl
    · exact untouched nofun nofun
    · -- The first waiter of the condvar goes from its queue to the run queue.
      by_cases hc : c' = c
      · rw [hc, Function.update_self, Function.update_of_ne (hand_ne c).2, Function.update_self,
          h.entered c, hq, List.append_assoc]
        rfl
      · rw [Function.update_of_ne hc,
          untouched (fun he => hc (Spot.condvar.inj he)) (hand_ne c').2]
        exact h.entered c'

theorem inv_notifyAll (h : Inv s place o) : ∃ place' o', Inv (next s (.notifyAll c)) place' o' := by
  refine ⟨_, o, h.pushed (h.placed.moveAll (x := .condvar c) (y := .hand) nofun) (fun u => ?_) ?_
    (fun c' => ?_)⟩
  · split
    next hu => exact .inr ⟨.inr ⟨c, h.at_mem.mp hu⟩, .inr rfl⟩
    next => exact .inl rfl
  · exact untouched nofun nofun
  · by_cases hc : c' = c
    · rw [hc, Function.update_self, Function.update_of_ne (hand_ne c).1, Function.update_self,
        h.entered c, List.append_nil]
    · rw [Function.update_of_ne hc,
        untouched (fun he => hc (Spot.condvar.inj he)) (hand_ne c').1]
      exact h.entered c'

/-- A ULT that is resumed has its guard, or goes on to lock again. -/
theorem inv_resume (h : Inv s place o) (hg : guard s (.resume t)) :
    ∃ place' o', Inv (next s (.resume t)) place' o' := by
  have ht : place t = some .run := h.at_mem.mp hg
  -- It was runnable, and is placed nowhere from here on.
  have hfit := h.fits t
  rw [ht] at hfit
  have hplaced : Placed (Function.update s.tokens .run ((s.tokens .run).erase t))
      (Function.update place t none) := h.placed.take hg
  have hmutex : Function.update s.tokens .run ((s.tokens .run).erase t) .mutex =
      s.tokens .mutex := Function.update_of_ne mutex_ne.2 _ _
  have hentered : ∀ c, s.entered c = s.taken c ++
      Function.update s.tokens .run ((s.tokens .run).erase t) (.condvar c) := by
    intro c
    rw [Function.update_of_ne (hand_ne c).2]
    exact h.entered c
  have hfits : ∀ (q : Pc C), Fits q none → ∀ u,
      Fits (Function.update s.pc t q u) (Function.update place t none u) := by
    intro q hq u
    by_cases hu : u = t
    · rw [hu, Function.update_self, Function.update_self]
      exact hq
    · rw [Function.update_of_ne hu, Function.update_of_ne hu]
      exact h.fits u
  -- It is not suspended any more: one more resumption against one more queueing.
  have hcounts : ∀ (q : Pc C), q.suspended = false → ∀ u, s.queued u =
      Function.update s.resumed t (s.resumed t + 1) u +
        if (Function.update s.pc t q u).suspended then 1 else 0 := by
    intro q hq u
    have hcount := h.counts u
    by_cases hu : u = t
    · subst hu
      rw [hfit.awake] at hcount
      rw [Function.update_self, Function.update_self, hq, hcount]
      rfl
    · rw [Function.update_of_ne hu, Function.update_of_ne hu]
      exact hcount
  unfold next
  dsimp only
  split
  -- Resumed from the mutex's queue: the mutex was handed to it.
  next hpc =>
    have ho : o = .handed t := (h.owns.popped t).mp ⟨hpc, .inr ht⟩
    subst ho
    refine ⟨_, .guard t, hplaced, hfits .holds rfl, ⟨fun u => ?_, fun u => ?_,
      h.owns.releasing, h.owns.locked, nofun⟩, ?_, hentered, hcounts .holds rfl⟩
    · change Function.update s.pc t .holds u = _ ↔ _
      by_cases hu : u = t
      · rw [hu, Function.update_self]
        exact iff_of_true rfl rfl
      · rw [Function.update_of_ne hu, h.owns.holds u]
        exact iff_of_false nofun fun he => hu (Owner.guard.inj he).symm
    · change Popped (Function.update s.pc t .holds u) _ ↔ _
      by_cases hu : u = t
      · rw [hu, Function.update_self]
        exact iff_of_false (fun hpop => nomatch hpop.1) nofun
      · rw [Function.update_of_ne hu, Function.update_of_ne hu, h.owns.popped u]
        exact iff_of_false (fun he => hu (Owner.handed.inj he).symm) nofun
    · change s.arrivals = s.acquired ++ [t] ++ [] ++
        Function.update s.tokens .run ((s.tokens .run).erase t) .mutex
      rw [hmutex, List.append_nil]
      exact h.fifo
  next hpc =>
    -- Resumed from a condvar's queue: whose the mutex is does not change.
    have hnot : s.pc t ≠ .locking := hpc
    have hholds : s.pc t ≠ .holds := by
      intro he
      rw [he] at hfit
      cases hfit
    refine ⟨_, o, hplaced, hfits .relock rfl, ⟨fun u => ?_, fun u => ?_, h.owns.releasing,
      h.owns.locked, fun ho => hmutex.trans (h.owns.idle ho)⟩, ?_, hentered,
      hcounts .relock rfl⟩
    · rw [← h.owns.holds u]
      change Function.update s.pc t .relock u = _ ↔ _
      by_cases hu : u = t
      · rw [hu, Function.update_self]
        exact iff_of_false nofun hholds
      · rw [Function.update_of_ne hu]
    · rw [← h.owns.popped u]
      change Popped (Function.update s.pc t .relock u) _ ↔ _
      by_cases hu : u = t
      · rw [hu, Function.update_self]
        exact iff_of_false (fun hpop => nomatch hpop.1) fun hpop => hnot hpop.1
      · rw [Function.update_of_ne hu, Function.update_of_ne hu]
    · exact h.fifo.trans (congrArg (_ ++ ·) hmutex.symm)

/-- Every step keeps the invariant. -/
theorem inv_next {a : Action T C} (h : Inv s place o) (hg : guard s a) :
    ∃ place' o', Inv (next s a) place' o' := by
  cases a with
  | lock t => exact inv_lock h hg
  | unlock t => exact inv_unlock h hg
  | wait t c => exact inv_wait h hg
  | release t => exact inv_release h hg
  | notify t => exact inv_notify h hg
  | notifyOne c => exact inv_notifyOne h
  | notifyAll c => exact inv_notifyAll h
  | resume t => exact inv_resume h hg

theorem inv_init (hi : (system).init s) : Inv s (fun _ => none) .free := by
  obtain ⟨hl, htok, hr, hpc, ha, hacq, hc, hn⟩ := hi
  refine ⟨⟨fun x t => ?_, fun x => ?_⟩, fun t => ?_, ⟨fun t => ?_, fun t => ?_, hr, hl,
    fun _ => htok _⟩, ?_, fun c => ?_, fun t => ?_⟩
  · -- There is nobody in any queue.
    rw [htok x]
    exact iff_of_false List.not_mem_nil nofun
  · rw [htok x]
    exact List.nodup_nil
  · rw [hpc t]
    exact rfl
  · rw [hpc t]
    exact iff_of_false nofun nofun
  · exact iff_of_false (fun hpop => by rcases hpop.2 with he | he <;> cases he) nofun
  · rw [ha, hacq, htok]
    rfl
  · rw [(hc c).1, (hc c).2, htok]
    rfl
  · rw [(hn t).1, (hn t).2, hpc t]
    rfl

theorem inv_reach (h : (system).Reachable s) : ∃ place o, Inv s place o := by
  refine System.Reachable.induct (P := fun s => ∃ place o, Inv s place o) h
    (fun s hi => ⟨_, _, inv_init hi⟩) (fun s a hI hg => ?_)
  rcases hI with ⟨place, o, hI⟩
  exact inv_next hI hg

/-! ### Notifies -/

omit [DecidableEq T] in
theorem unlock_histories (s : State T C) :
    s.unlock.entered = s.entered ∧ s.unlock.taken = s.taken := by
  unfold State.unlock
  split <;> exact ⟨rfl, rfl⟩

/-- What a step puts into a condvar's queue, or takes out of it, is last. -/
theorem histories_next (s : State T C) (a : Action T C) (c : C) :
    s.entered c <+: (next s a).entered c ∧ s.taken c <+: (next s a).taken c := by
  -- Only `wait` puts into such a queue, and only the notifies take out of it.
  cases a with
  | lock t =>
      unfold next
      dsimp only
      split <;> exact ⟨List.prefix_rfl, List.prefix_rfl⟩
  | unlock t =>
      change s.entered c <+: s.unlock.entered c ∧ s.taken c <+: s.unlock.taken c
      rw [(unlock_histories s).1, (unlock_histories s).2]
      exact ⟨List.prefix_rfl, List.prefix_rfl⟩
  | release t =>
      change s.entered c <+: s.unlock.entered c ∧ s.taken c <+: s.unlock.taken c
      rw [(unlock_histories s).1, (unlock_histories s).2]
      exact ⟨List.prefix_rfl, List.prefix_rfl⟩
  | wait t c' =>
      refine ⟨?_, List.prefix_rfl⟩
      change _ <+: Function.update s.entered c' (s.entered c' ++ [t]) c
      by_cases hc : c = c'
      · rw [hc, Function.update_self]
        exact List.prefix_append _ _
      · exact (Function.update_of_ne hc ..).symm ▸ List.prefix_rfl
  | notify t => exact ⟨List.prefix_rfl, List.prefix_rfl⟩
  | notifyOne c' =>
      unfold next
      dsimp only
      split
      next => exact ⟨List.prefix_rfl, List.prefix_rfl⟩
      next t rest hq =>
        refine ⟨List.prefix_rfl, ?_⟩
        dsimp only
        by_cases hc : c = c'
        · rw [hc, Function.update_self]
          exact List.prefix_append _ _
        · exact (Function.update_of_ne hc ..).symm ▸ List.prefix_rfl
  | notifyAll c' =>
      refine ⟨List.prefix_rfl, ?_⟩
      change _ <+: Function.update s.taken c' _ c
      by_cases hc : c = c'
      · rw [hc, Function.update_self]
        exact List.prefix_append _ _
      · exact (Function.update_of_ne hc ..).symm ▸ List.prefix_rfl
  | resume t =>
      unfold next
      dsimp only
      split <;> exact ⟨List.prefix_rfl, List.prefix_rfl⟩

/-- A step that leaves a wait in its queue is no notify of all, and if it is a
    notify it has taken out one that was before. -/
theorem taken_next (h : Inv s place o) (a : Action T C) (c : C) {i : ℕ}
    (hi : i < (s.entered c).length) (hnot : ¬ i < ((next s a).taken c).length) :
    a ≠ .notifyAll c ∧
      (s.taken c).length + [a].count (.notifyOne c) ≤ ((next s a).taken c).length := by
  refine ⟨?_, ?_⟩
  · intro ha
    subst ha
    apply hnot
    change i < (Function.update s.taken c (s.taken c ++ s.tokens (.condvar c)) c).length
    rw [Function.update_self, ← h.entered c]
    exact hi
  · by_cases hone : a = .notifyOne c
    · subst hone
      have hentered := congrArg List.length (h.entered c)
      rw [List.length_append] at hentered
      rw [List.count_singleton_self]
      revert hnot
      unfold next
      dsimp only
      split
      next hq =>
        -- With nothing in the queue the wait is not in it either.
        rw [hq, List.length_nil] at hentered
        omega
      next t rest hq =>
        intro
        dsimp only
        refine Nat.le_of_eq ?_
        rw [Function.update_self, List.length_append, List.length_singleton]
    · rw [List.count_singleton, if_neg (by simpa using hone)]
      exact (histories_next s a c).2.length_le

/-- A wait is taken out by the first notify of all, or by as many notifies as
    there are waits before it and one more. -/
theorem taken_run (c : C) {i : ℕ} : ∀ (as : List (Action T C)) (s : State T C),
    (∃ place o, Inv s place o) → (system).Legal s as → i < (s.entered c).length →
    (.notifyAll c ∈ as ∨ i < (s.taken c).length + as.count (.notifyOne c)) →
    i < (((system).run s as).taken c).length := by
  intro as
  induction as with
  | nil =>
      intro s _ _ _ ha
      rcases ha with ha | ha
      · cases ha
      · exact ha
  | cons a as ih =>
      intro s hI hl hi ha
      rcases hI with ⟨place, o, hI⟩
      have hentered := (histories_next s a c).1.length_le
      refine ih (next s a) (inv_next hI hl.1) hl.2 (Nat.lt_of_lt_of_le hi hentered) ?_
      by_cases hin : i < ((next s a).taken c).length
      · exact .inr (Nat.lt_add_right _ hin)
      · -- This step does not take it out, so it has to be a later one.
        obtain ⟨hall, hone⟩ := taken_next hI a c hi hin
        rcases ha with ha | ha
        · rcases List.mem_cons.mp ha with he | he
          · exact absurd he.symm hall
          · exact .inl he
        · have hcount : (a :: as).count (.notifyOne c) =
              [a].count (.notifyOne c) + as.count (.notifyOne c) := by
            rw [← List.count_append, List.singleton_append]
          exact .inr (by omega)

theorem histories_run (c : C) : ∀ (as : List (Action T C)) (s : State T C),
    s.entered c <+: ((system).run s as).entered c := by
  intro as
  induction as with
  | nil => exact fun s => List.prefix_rfl
  | cons a as ih => exact fun s => (histories_next s a c).1.trans (ih _)

end

/-! ### The contract -/

/-- What the mutex and its condvars promise in each state. -/
structure Contract (s : State T C) : Prop where
  /-- At most one guard is live. -/
  one : ∀ t u, s.pc t = .holds → s.pc u = .holds → t = u
  /-- Whoever was queued gets the mutex in that order, at most one being on its way. -/
  fifo : ∃ l, l.length ≤ 1 ∧ s.arrivals = s.acquired ++ l ++ s.tokens .mutex
  locked : s.tokens .mutex ≠ [] → s.locked = true
  /-- The mutex is locked for somebody who has yet to unlock it. -/
  heldFor : s.locked = true → ∃ t, s.pc t = .holds ∨ t ∈ s.releasing ∨
    s.pc t = .locking ∧ (t ∈ s.tokens .hand ∨ t ∈ s.tokens .run)
  /-- Each time a ULT was queued it has been resumed once, the last time perhaps not yet. -/
  counts : ∀ t, s.queued t = s.resumed t + if (s.pc t).suspended then 1 else 0
  /-- A suspended ULT is in one queue, or on its way from it. -/
  once : ∀ t, (s.pc t).suspended = true → ∃! x, t ∈ s.tokens x
  nodup : ∀ x, (s.tokens x).Nodup
  waiting : ∀ t c, s.pc t = .waiting c →
    t ∈ s.tokens (.condvar c) ∨ t ∈ s.tokens .hand ∨ t ∈ s.tokens .run
  /-- A condvar's waits are taken out in the order they were queued. -/
  entered : ∀ c, s.entered c = s.taken c ++ s.tokens (.condvar c)

theorem Inv.contract (h : Inv s place o) : Contract s where
  one := by
    intro t u ht hu
    have hsame := ((h.owns.holds t).mp ht).symm.trans ((h.owns.holds u).mp hu)
    exact Owner.guard.inj hsame
  fifo := by
    refine ⟨o.handoff, ?_, h.fifo⟩
    cases o with
    -- Whose the mutex is decides each of the promises.
    | handed t => exact Nat.le_refl 1
    | free | guard t | callback t => exact Nat.zero_le 1
  locked := by
    intro hq
    rw [h.owns.locked]
    cases o with
    | free => exact absurd (h.owns.idle rfl) hq
    | guard t | handed t | callback t => rfl
  heldFor := by
    intro hlocked
    rw [h.owns.locked] at hlocked
    cases o with
    | free => cases hlocked
    | guard t => exact ⟨t, .inl ((h.owns.holds t).mpr rfl)⟩
    | handed t =>
        obtain ⟨hpc, hat⟩ := (h.owns.popped t).mpr rfl
        exact ⟨t, .inr (.inr ⟨hpc, hat.imp h.at_mem.mpr h.at_mem.mpr⟩)⟩
    | callback t =>
        refine ⟨t, .inr (.inl ?_)⟩
        rw [h.owns.releasing]
        exact List.mem_singleton_self t
  counts := h.counts
  once := by
    intro t ht
    refine h.placed.located.once fun hnone => ?_
    have hf := h.fits t
    rw [hnone] at hf
    rw [hf.none] at ht
    cases ht
  nodup := h.placed.nodup
  waiting := by
    intro t c hpc
    have hf := h.fits t
    rw [hpc] at hf
    rcases hf with hf | hf | hf
    · exact .inl (h.at_mem.mpr hf)
    · exact .inr (.inl (h.at_mem.mpr hf))
    · exact .inr (.inr (h.at_mem.mpr hf))
  entered := h.entered

section

variable [DecidableEq T] [DecidableEq C]

/-- In every state the promises hold. A wait that has been queued is taken out of
    the condvar's queue by a notify of all, or by as many notifies as there are
    waits before it and one more, whatever else happens between them. -/
theorem mutex_contract (h : (system).Reachable s) :
    Contract s ∧ ∀ (c : C) (i : ℕ) (as : List (Action T C)), (system).Legal s as →
      i < (s.entered c).length →
      (.notifyAll c ∈ as ∨ i < (s.taken c).length + as.count (.notifyOne c)) →
      (((system).run s as).taken c)[i]? = (s.entered c)[i]? := by
  have hI := inv_reach h
  refine ⟨?_, fun c i as hl hi ha => ?_⟩
  · rcases hI with ⟨place, o, hI⟩
    exact hI.contract
  · have hin := taken_run c as s hI hl hi ha
    have hend := inv_reach (System.reachableIf_run system as s h hl (System.along_true _ s as))
    rcases hend with ⟨place, o, hend⟩
    rcases histories_run c as s with ⟨later, hlater⟩
    have hstill : (((system).run s as).entered c)[i]? = (s.entered c)[i]? := by
      rw [← hlater, List.getElem?_append_left hi]
    rw [← hstill, hend.entered c, List.getElem?_append_left hin]

/-- Nobody has used the mutex yet. -/
def start : State T C where
  locked := false
  tokens _ := []
  releasing := []
  pc _ := .out
  arrivals := []
  acquired := []
  entered _ := []
  taken _ := []
  queued _ := 0
  resumed _ := 0

end

/-- A ULT waits while another is queued for the mutex, which is then unlocked and
    handed over. -/
def waitBehind : List (Action Bool Unit) :=
  [.lock true, .lock false, .wait true (), .release true, .notify false, .resume false]

/-- The wait is taken out by a notify of whoever has the mutex now, and by no other. -/
theorem mutex_waitBehind :
    Contract ((system).run (start : State Bool Unit) waitBehind) ∧
      (((system).run ((system).run start waitBehind)
        [.unlock false, .notifyOne ()]).taken ())[0]? = some true := by
  have hreach : (system).Reachable ((system).run (start : State Bool Unit) waitBehind) :=
    System.reachable_run system waitBehind start
      ⟨rfl, fun _ => rfl, rfl, fun _ => rfl, rfl, rfl, fun _ => ⟨rfl, rfl⟩, fun _ => ⟨rfl, rfl⟩⟩
      (by decide +kernel)
  have h := mutex_contract hreach
  refine ⟨h.1, (h.2 () 0 [.unlock false, .notifyOne ()] (by decide +kernel) (by decide +kernel)
    (.inr (by decide +kernel))).trans (by decide +kernel)⟩

end Mutex

end Cmpth

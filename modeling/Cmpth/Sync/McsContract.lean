import Cmpth.Sync.Tickets

/-!
# The Contract of the MCS Mutex

A condvar's steps move waiters about and give guards up; the mutex does not see
more of them. With them every step keeps the invariant, and the promises can be
read off it.

That no node is accessed after its guard was dropped is a matter of instances: an
address may be in use again, for another call. An operation on the node of a
neighbour finds there the call with the ticket before, or the one with the next
ticket, which is whose node it was when the pointer to it was stored.

## Main definitions

* `Contract`: What the mutex promises in each state.

## Theorems

* `Inv.passed`: The continuation of a ULT that waits on a condvar goes its way.
* `Fits.waits`: Who has been popped is waiting.
* `Inv.waits`: What is in a condvar's queue waits on it, unless the spinlock is held.
* `inv_takeSlot`, `inv_push`, `inv_notifyOne`, `inv_notifyAll`, `inv_unspin`: The steps of notifies.
* `Inv.spin`: A notify acquires a condvar's spinlock.
* `inv_wait`, `inv_fill`: The steps of waits.
* `inv_release`: Only now can a notify get at the wait, and only now does its guard begin to be
  dropped.
* `inv_next`: Every step keeps the invariant.
* `inv_init`, `inv_reach`: The invariant holds in every state.
* `Inv.owned`, `Inv.contract`: The nodes belong to those who access them, and the promises follow.
* `mcs_contract`: The promises hold in every state.
* `mcs_notifiedEarly`: A notify that comes before the wait is over.
-/

namespace Cmpth

namespace McsMutex

open DualMutex (Waits HasGuard Queued)

variable {T A C J : Type*}

variable {s : State T A C J} {place : T → Option (Spot C J)} {t u : T} {p n : A} {c : C} {j : J}
  {pc : Pc A C} {x : Option (Spot C J)} {w : A → Option A}

section

variable [DecidableEq T] [DecidableEq A] [DecidableEq C] [DecidableEq J]

omit [DecidableEq T] [DecidableEq A] [DecidableEq C] [DecidableEq J] in
/-- The continuation of a ULT that waits on a condvar goes its way. -/
theorem Inv.passed (h : Inv s place) {f : Spot C J → List T} {place' : T → Option (Spot C J)}
    (hplaced : Placed f place')
    (hwhere : ∀ u, place' u = place u ∨ (∃ c, s.pc u = .waiting c) ∧
      ((∃ j, place' u = some (.popped j)) ∨ (∃ j, place' u = some (.taken j)) ∨
        place' u = some .run)) : Inv { s with tokens := f } place' := by
  refine h.suspends (fun _ => rfl) (fun _ => rfl) (fun _ => rfl) hplaced fun u => ?_
  rcases hwhere u with hu | ⟨⟨c, hc⟩, hu⟩
  · rw [hu]
    exact h.fits u
  · rw [hc]
    exact .inr hu

omit [DecidableEq T] [DecidableEq A] [DecidableEq C] [DecidableEq J] in
theorem Fits.waits (h : Fits w pc x)
    (hx : (∃ j, x = some (.popped j)) ∨ ∃ j, x = some (.taken j)) : ∃ c, pc = .waiting c := by
  cases pc with
  | waiting c => exact ⟨c, rfl⟩
  | idle | relock | entering c p =>
      rcases hx with ⟨j, rfl⟩ | ⟨j, rfl⟩ <;> cases h
  | locking p =>
      rcases hx with ⟨j, rfl⟩ | ⟨j, rfl⟩ <;> rcases h with ⟨h, -⟩ | ⟨h, -⟩ <;> cases h
  | queued c p =>
      rcases hx with ⟨j, rfl⟩ | ⟨j, rfl⟩ <;> cases h

omit [DecidableEq T] [DecidableEq A] [DecidableEq C] [DecidableEq J] in
/-- What is in a condvar's queue waits on it, unless the spinlock is held. -/
theorem Inv.waits (h : Inv s place) (hspin : s.spin c = none)
    (ht : place t = some (.condvar c)) : s.pc t = .waiting c := by
  have hf := h.fits t
  rw [ht] at hf
  -- Whoever is between the push and the release has the spinlock.
  cases hpc : s.pc t with
  | idle | relock | entering c' p =>
      rw [hpc] at hf
      cases hf
  | locking p =>
      rw [hpc] at hf
      rcases hf with ⟨hf, -⟩ | ⟨hf, -⟩ <;> cases hf
  | queued c' p =>
      rw [hpc] at hf
      cases hf
      have hspun := (h.spun t c).mp (by rw [hpc]; rfl)
      rw [hspin] at hspun
      cases hspun
  | waiting c' =>
      rw [hpc] at hf
      rcases hf with hf | ⟨j, hf⟩ | ⟨j, hf⟩ | hf
      · cases hf
        rfl
      · cases hf
      · cases hf
      · cases hf

theorem inv_takeSlot (h : Inv s place) : ∃ place', Inv (next s (.takeSlot j)) place' := by
  change ∃ place', Inv (s.move (.popped j) (.taken j)) place'
  unfold State.move
  split
  next => exact ⟨place, h⟩
  next t rest hq =>
    have ht : place t = some (.popped j) := h.placed.mem.mp (by rw [hq]; exact List.mem_cons_self)
    have hf := h.fits t
    rw [ht] at hf
    refine ⟨_, h.passed (h.placed.moveHead hq nofun) fun u => ?_⟩
    by_cases hu : u = t
    · rw [hu, Function.update_self]
      exact .inr ⟨hf.waits (.inl ⟨j, rfl⟩), .inr (.inl ⟨j, rfl⟩)⟩
    · rw [Function.update_of_ne hu]
      exact .inl rfl

theorem inv_push (h : Inv s place) : ∃ place', Inv (next s (.push j)) place' := by
  change ∃ place', Inv (s.move (.taken j) .run) place'
  unfold State.move
  split
  next => exact ⟨place, h⟩
  next t rest hq =>
    have ht : place t = some (.taken j) := h.placed.mem.mp (by rw [hq]; exact List.mem_cons_self)
    have hf := h.fits t
    rw [ht] at hf
    refine ⟨_, h.passed (h.placed.moveHead hq nofun) fun u => ?_⟩
    by_cases hu : u = t
    · rw [hu, Function.update_self]
      exact .inr ⟨hf.waits (.inr ⟨j, rfl⟩), .inr (.inr rfl)⟩
    · rw [Function.update_of_ne hu]
      exact .inl rfl

omit [DecidableEq T] [DecidableEq A] in
/-- A notify acquires a condvar's spinlock. -/
theorem Inv.spin (h : Inv s place) (hspin : s.spin c = none) (hidle : (s.call j).lock = none)
    (all : Bool) :
    Inv { s with
      call := Function.update s.call j { lock := some c, all := all }
      spin := Function.update s.spin c (some (.notify j)) } place where
  chained := h.chained
  ordered := h.ordered
  owner := h.owner
  held := h.held
  parked := h.parked
  spun := by
    intro u c'
    change _ ↔ Function.update s.spin c _ c' = _
    rw [h.spun u c']
    -- The spinlock was free, and this call had none.
    by_cases hc : c' = c
    · rw [hc, Function.update_self, hspin]
      exact iff_of_false (by simp) (by simp)
    · rw [Function.update_of_ne hc]
  notifies := by
    intro i c'
    change (Function.update s.call j _ i).lock = _ ↔ Function.update s.spin c _ c' = _
    by_cases hi : i = j
    · rw [hi, Function.update_self]
      by_cases hc : c' = c
      · rw [hc, Function.update_self]
        exact iff_of_true rfl rfl
      · rw [Function.update_of_ne hc, ← h.notifies j c', hidle]
        exact iff_of_false (fun he => hc (Option.some.inj he).symm) (by simp)
    · rw [Function.update_of_ne hi, h.notifies i c']
      by_cases hc : c' = c
      · rw [hc, Function.update_self, hspin]
        exact iff_of_false (by simp) fun he => hi (Holder.notify.inj (Option.some.inj he)).symm
      · rw [Function.update_of_ne hc]
  placed := h.placed
  fits := h.fits

theorem inv_notifyOne (h : Inv s place) (hg : guard s (.notifyOne j c)) :
    ∃ place', Inv (next s (.notifyOne j c)) place' := by
  obtain ⟨⟨hidle, -, -⟩, hspin⟩ := hg
  change ∃ place', Inv { s.move (.condvar c) (.popped j) with call := _, spin := _ } place'
  unfold State.move
  split
  next => exact ⟨place, h.spin hspin hidle false⟩
  next t rest hq =>
    have ht : place t = some (.condvar c) :=
      h.placed.mem.mp (by rw [hq]; exact List.mem_cons_self)
    refine ⟨_, (h.passed (h.placed.moveHead hq (y := .popped j) nofun) fun u => ?_).spin
      hspin hidle false⟩
    by_cases hu : u = t
    · rw [hu, Function.update_self]
      exact .inr ⟨⟨c, h.waits hspin ht⟩, .inl ⟨j, rfl⟩⟩
    · rw [Function.update_of_ne hu]
      exact .inl rfl

theorem inv_notifyAll (h : Inv s place) (hg : guard s (.notifyAll j c)) :
    ∃ place', Inv (next s (.notifyAll j c)) place' := by
  obtain ⟨⟨hidle, -, -⟩, hspin⟩ := hg
  refine ⟨_, (h.passed (h.placed.moveAll (x := .condvar c) (y := .popped j) nofun)
    fun u => ?_).spin hspin hidle true⟩
  split
  next hu => exact .inr ⟨⟨c, h.waits hspin (h.placed.mem.mp hu)⟩, .inl ⟨j, rfl⟩⟩
  next => exact .inl rfl

theorem inv_unspin (h : Inv s place) : Inv (next s (.unspin j)) place := by
  unfold next
  dsimp only
  split
  next c hlock =>
    have hspin := (h.notifies j c).mp hlock
    refine { h with spun := fun u c' => ?_, notifies := fun i c' => ?_ }
    · -- The spinlock is free, and the call has it no more.
      change _ ↔ Function.update s.spin c none c' = _
      rw [h.spun u c']
      by_cases hc : c' = c
      · rw [hc, Function.update_self, hspin]
        exact iff_of_false (by simp) (by simp)
      · rw [Function.update_of_ne hc]
    · change (Function.update s.call j _ i).lock = _ ↔ Function.update s.spin c none c' = _
      by_cases hi : i = j
      · rw [hi, Function.update_self]
        refine iff_of_false (by simp) fun he => ?_
        by_cases hc : c' = c
        · rw [hc, Function.update_self] at he
          cases he
        · rw [Function.update_of_ne hc, ← h.notifies j c', hlock] at he
          exact hc (Option.some.inj he).symm
      · rw [Function.update_of_ne hi, h.notifies i c']
        by_cases hc : c' = c
        · rw [hc, Function.update_self, hspin]
          exact iff_of_false (fun he => hi (Holder.notify.inj (Option.some.inj he)).symm)
            (by simp)
        · rw [Function.update_of_ne hc]
  next => exact h

theorem inv_wait (h : Inv s place) (hg : guard s (.wait t p c)) :
    Inv (next s (.wait t p c)) place := by
  obtain ⟨hpc, hlive, hspin⟩ := hg
  -- Nobody else has the node of this guard parked.
  have hparked : ∀ u q, (s.pc u).parks = some q → q ≠ p := by
    intro u q hq he
    have hhold := h.parked u q hq
    rw [he, hlive] at hhold
    cases hhold
  refine ⟨h.chained, h.ordered, fun u q => ?_, fun q => ?_, fun u q hq => ?_, fun u c' => ?_,
    fun j c' => ?_, h.placed, fun u => ?_⟩
  · change (Function.update s.pc t (.entering c p) u).locks = some q ↔ _
    rw [kept Pc.locks (q := .entering c p) (by rw [hpc]; rfl)]
    exact h.owner u q
  · refine Iff.trans ?_ (h.held q)
    change Function.update s.hold p (.callback t) q ≠ _ ↔ _
    by_cases hq : q = p
    · rw [hq, Function.update_self, hlive]
      exact iff_of_true nofun nofun
    · rw [Function.update_of_ne hq]
  · change (Function.update s.pc t (.entering c p) u).parks = some q at hq
    change Function.update s.hold p _ q = _
    by_cases hu : u = t
    · rw [hu, Function.update_self] at hq
      cases hq
      rw [hu, Function.update_self]
    · rw [Function.update_of_ne hu] at hq
      rw [Function.update_of_ne (hparked u q hq)]
      exact h.parked u q hq
  · change (Function.update s.pc t (.entering c p) u).spins = some c' ↔
      Function.update s.spin c _ c' = _
    by_cases hu : u = t
    · rw [hu, Function.update_self]
      by_cases hc : c' = c
      · rw [hc, Function.update_self]
        exact iff_of_true rfl rfl
      · rw [Function.update_of_ne hc, ← h.spun t c', hpc]
        exact iff_of_false (fun he => hc (Option.some.inj he).symm) nofun
    · rw [Function.update_of_ne hu, h.spun u c']
      by_cases hc : c' = c
      · rw [hc, Function.update_self, hspin]
        exact iff_of_false nofun fun he => hu (Holder.wait.inj (Option.some.inj he)).symm
      · rw [Function.update_of_ne hc]
  · refine (h.notifies j c').trans ?_
    change _ ↔ Function.update s.spin c (some (.wait t)) c' = _
    by_cases hc : c' = c
    · rw [hc, Function.update_self, hspin]
      exact iff_of_false nofun nofun
    · rw [Function.update_of_ne hc]
  · change Fits _ (Function.update s.pc t (.entering c p) u) _
    by_cases hu : u = t
    · rw [hu, Function.update_self]
      exact h.nowhere (.inl hpc)
    · rw [Function.update_of_ne hu]
      exact h.fits u

theorem inv_fill (h : Inv s place) : ∃ place', Inv (next s (.fill t)) place' := by
  unfold next
  dsimp only
  split
  next c p hpc =>
    have hplace : place t = none := by
      have hf := h.fits t
      rw [hpc] at hf
      exact hf
    refine ⟨_, h.suspends (kept Pc.locks (q := .queued c p) (by rw [hpc]; rfl))
      (kept Pc.parks (q := .queued c p) (by rw [hpc]; rfl))
      (kept Pc.spins (q := .queued c p) (by rw [hpc]; rfl))
      (h.placed.append hplace (.condvar c)) fun u => ?_⟩
    by_cases hu : u = t
    · rw [hu, Function.update_self, Function.update_self]
      exact rfl
    · rw [Function.update_of_ne hu, Function.update_of_ne hu]
      exact h.fits u
  next => exact ⟨place, h⟩

/-- Only now can a notify get at the wait, and only now does its guard begin to be
    dropped. -/
theorem inv_release (h : Inv s place) : Inv (next s (.release t)) place := by
  -- The wait gives up its node and the condvar's spinlock in one step.
  unfold next
  dsimp only
  split
  next c p hpc =>
    have hhold := h.parked t p (by rw [hpc]; rfl)
    have hspin := (h.spun t c).mp (by rw [hpc]; rfl)
    -- Two owners change, that of the node and that of the spinlock; the chain of nodes does not.
    refine ⟨h.chained, h.ordered, fun u q => ?_, fun q => ?_, fun u q hq => ?_, fun u c' => ?_,
      fun j c' => ?_, h.placed, fun u => ?_⟩
    · change (Function.update s.pc t (.waiting c) u).locks = some q ↔ _
      rw [kept Pc.locks (q := .waiting c) (by rw [hpc]; rfl)]
      exact h.owner u q
    · refine Iff.trans ?_ (h.held q)
      change Function.update s.hold p .dropping q ≠ _ ↔ _
      by_cases hq : q = p
      · rw [hq, Function.update_self, hhold]
        exact iff_of_true nofun nofun
      · rw [Function.update_of_ne hq]
    · change (Function.update s.pc t (.waiting c) u).parks = some q at hq
      change Function.update s.hold p _ q = _
      by_cases hu : u = t
      · rw [hu, Function.update_self] at hq
        cases hq
      · rw [Function.update_of_ne hu] at hq
        have hold := h.parked u q hq
        have hqp : q ≠ p := by
          intro he
          rw [he, hhold] at hold
          exact hu (Hold.callback.inj hold).symm
        rw [Function.update_of_ne hqp]
        exact hold
    · change (Function.update s.pc t (.waiting c) u).spins = some c' ↔
        Function.update s.spin c none c' = _
      by_cases hu : u = t
      · rw [hu, Function.update_self]
        refine iff_of_false nofun fun he => ?_
        by_cases hc : c' = c
        · rw [hc, Function.update_self] at he
          cases he
        · rw [Function.update_of_ne hc, ← h.spun t c', hpc] at he
          exact hc (Option.some.inj he).symm
      · rw [Function.update_of_ne hu, h.spun u c']
        by_cases hc : c' = c
        · rw [hc, Function.update_self, hspin]
          exact iff_of_false (fun he => hu (Holder.wait.inj (Option.some.inj he)).symm) nofun
        · rw [Function.update_of_ne hc]
    · refine (h.notifies j c').trans ?_
      change _ ↔ Function.update s.spin c none c' = _
      by_cases hc : c' = c
      · rw [hc, Function.update_self, hspin]
        exact iff_of_false nofun nofun
      · rw [Function.update_of_ne hc]
    · change Fits _ (Function.update s.pc t (.waiting c) u) _
      have hf := h.fits u
      by_cases hu : u = t
      · rw [hu] at hf ⊢
        rw [hpc] at hf
        rw [Function.update_self]
        exact .inl hf
      · rw [Function.update_of_ne hu]
        exact hf
  next => exact h

/-- Every step keeps the invariant. -/
theorem inv_next {a : Action T A C J} (h : Inv s place) (hg : guard s a) :
    ∃ place', Inv (next s a) place' := by
  cases a with
  | lock t p => exact ⟨_, inv_lock h hg⟩
  | publish p => exact ⟨_, inv_publish h hg⟩
  | link p => exact ⟨_, inv_link h hg⟩
  | resume t => exact inv_resume h hg
  | drop p => exact ⟨_, inv_drop h hg⟩
  | unlock p => exact ⟨_, inv_unlock h hg⟩
  | follow p => exact ⟨_, inv_follow h hg⟩
  | take p => exact ⟨_, inv_take h⟩
  | wake p => exact inv_wake h
  | wait t p c => exact ⟨_, inv_wait h hg⟩
  | fill t => exact inv_fill h
  | release t => exact ⟨_, inv_release h⟩
  | notifyOne j c => exact inv_notifyOne h hg
  | notifyAll j c => exact inv_notifyAll h hg
  | takeSlot j => exact inv_takeSlot h
  | push j => exact inv_push h
  | unspin j => exact ⟨_, inv_unspin h⟩

theorem inv_init (hi : (system).init s) : Inv s (fun _ => none) := by
  obtain ⟨hchain, hhold, hpc, htok, hspin, hcall, hswaps, hacq⟩ := hi
  -- There are no nodes, so nobody waits and nobody has a guard.
  have hwaits : ∀ p, ¬ Waits s.chain p := fun p hw => DualMutex.queued_of_waits hw (hchain.2 p)
  have hguard : ∀ p, ¬ HasGuard s.chain p := fun p hg => DualMutex.queued_of_guard hg (hchain.2 p)
  refine ⟨⟨⟨0, ?_⟩, fun q a hq => ?_, fun p hp => ?_⟩, ⟨?_, fun p hp => absurd hp (hguard p),
    fun p hp => absurd hp (hwaits p), fun _ => ?_⟩, fun t p => ?_, fun p => ?_, fun t p hp => ?_,
    fun t c => ?_, fun j c => ?_, ⟨fun x t => ?_, fun x => ?_⟩, fun t => ?_⟩
  · rw [hswaps]
    exact DualMutex.inv_init hchain
  · rw [hchain.2 q] at hq
    cases hq
  · rw [hchain.2 p] at hp
    cases hp
  · rw [hacq]
    rfl
  · rw [hacq, hswaps]
    rfl
  · rw [hpc t]
    exact iff_of_false (by rintro ⟨⟩) fun hw => hwaits p hw.1
  · rw [hhold p, hchain.2 p]
    exact iff_of_false (fun hne => hne rfl) (by simp)
  · rw [hpc t] at hp
    cases hp
  · rw [hpc t, hspin c]
    exact iff_of_false (by rintro ⟨⟩) (by simp)
  · rw [hcall j, hspin c]
    exact iff_of_false (by simp) (by simp)
  · rw [htok x]
    exact iff_of_false List.not_mem_nil (by simp)
  · rw [htok x]
    exact List.nodup_nil
  · rw [hpc t]
    exact rfl

theorem inv_reach (h : (system).Reachable s) : ∃ place, Inv s place := by
  refine System.Reachable.induct (P := fun s => ∃ place, Inv s place) h
    (fun s hi => ⟨_, inv_init hi⟩) (fun s a hI hg => ?_)
  rcases hI with ⟨place, hI⟩
  exact inv_next hI hg

end

/-- What the mutex promises in each state. -/
structure Contract (s : State T A C J) : Prop where
  /-- At most one guard is live, and it is the only one in anybody's hands. -/
  one : ∀ p q, HasGuard s.chain p → HasGuard s.chain q → p = q
  live : ∀ p, s.hold p ≠ .none → HasGuard s.chain p
  /-- Guards are returned in the order of the swaps. -/
  inOrder : s.acquired = List.range s.acquired.length
  /-- The last in the queue is the call whose swap was last. -/
  last : ∀ p, s.chain.tail = some p → Queued s.chain p ∧ s.serial p + 1 = s.swaps
  /-- No node is accessed after the guard that owns it was dropped. -/
  owned : ∀ a, guard s a → ∀ n k, (n, k) ∈ accesses s a → Queued s.chain n ∧ s.serial n = k
  /-- While `tail` is not null a guard is live, or somebody has been woken for it. -/
  served : s.chain.tail ≠ none → (∃ p, HasGuard s.chain p) ∨
    ∃ t p, s.pc t = .locking p ∧ (s.chain.node p).phase = .waiting ∧ t ∈ s.tokens .run
  /-- A releaser finds the link, or it is about to be stored. -/
  reached : ∀ p, (s.chain.node p).phase = .following → (s.chain.node p).next ≠ none ∨
    ∃ q, (s.chain.node q).prev = some p ∧
      ((s.chain.node q).phase = .enqueued ∨ (s.chain.node q).phase = .published)
  /-- It finds the slot filled. -/
  filled : ∀ p n, (s.chain.node p).phase = .notifying n → (s.chain.node n).wait ≠ none

theorem Inv.owned (h : Inv s place) [DecidableEq T] [DecidableEq A] [DecidableEq C]
    [DecidableEq J] {a : Action T A C J} (hg : guard s a) :
    ∀ n k, (n, k) ∈ accesses s a → Queued s.chain n ∧ s.serial n = k := by
  rcases h.chained.tickets with ⟨lo, hi⟩
  -- A node in use is owned by the ULT that has it, or by its unlock.
  have hown : ∀ {p : A}, (s.chain.node p).phase ≠ .free → ∀ n k,
      (n, k) ∈ [(p, s.serial p)] → Queued s.chain n ∧ s.serial n = k := by
    intro p hp n k hm
    cases List.mem_singleton.mp hm
    exact ⟨hp, rfl⟩
  -- One case for each access to a node.
  cases a with
  | publish p =>
      have hp : (s.chain.node p).phase = .enqueued := hg
      exact hown (by rw [hp]; simp)
  | unlock p =>
      have hp : s.hold p = .dropping := hg
      have hlocked := (h.held p).mp (by rw [hp]; simp)
      exact hown (by rw [hlocked]; simp)
  | follow p =>
      have hp : (s.chain.node p).phase = .following := hg
      exact hown (by rw [hp]; simp)
  | wake p =>
      unfold guard at hg
      dsimp only at hg
      split at hg
      next n w hp => exact hown (by rw [hp]; simp)
      next => cases hg
  | link p =>
      have hp : (s.chain.node p).phase = .published := hg
      have hself := hown (p := p) (by rw [hp]; simp)
      have hwaits : Waits s.chain p := by
        rw [Waits, hp]
        rfl
      obtain ⟨a, ha, ⟨-, hqueued, hbefore⟩ | ⟨hph, -, -⟩⟩ := hi.waits p hwaits
      · intro n k hm
        unfold accesses at hm
        simp only [ha, List.mem_cons, List.not_mem_nil, or_false] at hm
        rcases hm with hm | hm
        · exact hself n k (List.mem_singleton.mpr hm)
        · cases hm
          exact ⟨hqueued, by omega⟩
      · rw [hp] at hph
        cases hph
  | take p =>
      intro n k hm
      unfold guard at hg
      dsimp only at hg
      split at hg
      next b hp =>
        obtain ⟨hserial, hph, -, -⟩ := h.behind (.inl hp)
        unfold accesses at hm
        simp only [hp, List.mem_cons, List.not_mem_nil, or_false] at hm
        rcases hm with hm | hm
        · exact hown (p := p) (by rw [hp]; simp) n k (List.mem_singleton.mpr hm)
        · cases hm
          refine ⟨?_, hserial⟩
          intro hfree
          rw [hph] at hfree
          cases hfree
      next => cases hg
  | lock t p | resume t | drop p | wait t p c | fill t | release t | notifyOne j c
  | notifyAll j c | takeSlot j | push j | unspin j =>
      intro n k hm
      cases hm

theorem Inv.contract (h : Inv s place) [DecidableEq T] [DecidableEq A] [DecidableEq C]
    [DecidableEq J] : Contract s := by
  rcases h.chained.tickets with ⟨lo, hi⟩
  refine ⟨fun p q hp hq => ?_, fun p hp => ?_, h.ordered.range, fun p hp => ?_,
    fun a hg => h.owned hg, fun ht => ?_, fun p hp => ?_, fun p n hp => hi.filled hp⟩
  · exact hi.exclusive.unique p q hp hq
  · rw [HasGuard, (h.held p).mp hp]
    rfl
  · exact hi.tail_some p hp
  · obtain ⟨p, -, hguard | ⟨hph, hwoken⟩⟩ := hi.served ht
    · exact .inl ⟨p, hguard⟩
    · have hwaits : Waits s.chain p := by
        rw [Waits, hph]
        rfl
      have hlocks := (h.owner (s.ult p) p).mpr ⟨hwaits, rfl⟩
      have hf := h.fits (s.ult p)
      cases hpc : s.pc (s.ult p) with
      | locking q =>
          rw [hpc] at hlocks hf
          have hqp : q = p := Option.some.inj hlocks
          rcases hf with ⟨-, hw⟩ | ⟨hrun, -⟩
          · rw [hqp] at hw
            exact absurd hw hwoken
          · exact .inr ⟨s.ult p, p, hqp ▸ hpc, hph, h.placed.mem.mpr hrun⟩
      | idle | relock | entering c q | queued c q | waiting c =>
          rw [hpc] at hlocks
          cases hlocks
  · exact hi.reached h.chained.linked h.chained.followed hp

section

variable [DecidableEq T] [DecidableEq A] [DecidableEq C] [DecidableEq J]

/-- The promises hold in every state that any interleaving reaches. -/
theorem mcs_contract (h : (system).Reachable s) : Contract s := by
  rcases inv_reach h with ⟨place, hI⟩
  exact hI.contract

end

/-- Nobody has used the mutex yet. -/
def start : State ℕ ℕ Unit Unit where
  chain := DualMutex.unlocked
  ult _ := 0
  hold _ := .none
  pc _ := .idle
  tokens _ := []
  spin _ := none
  call _ := { lock := none, all := false }
  serial _ := 0
  swaps := 0
  acquired := []

/-- A wait gives its guard up with another ULT in the queue; it is notified, and
    queued again, before the drop of its guard has got anywhere. -/
def notifiedEarly : List (Action ℕ ℕ Unit Unit) :=
  [.lock 0 0, .lock 1 1, .publish 1, .wait 0 0 (), .fill 0, .release 0, .notifyOne () (),
    .takeSlot (), .push (), .unspin (), .resume 0, .lock 0 2, .publish 2, .link 2, .unlock 0,
    .follow 0, .link 1, .follow 0, .take 0, .wake 0, .resume 1]

theorem mcs_notifiedEarly :
    (system).Legal start notifiedEarly ∧ Contract ((system).run start notifiedEarly) := by
  have hl : (system).Legal start notifiedEarly := by decide +kernel
  refine ⟨hl, mcs_contract (System.reachable_run system notifiedEarly start ?_ hl)⟩
  exact ⟨⟨rfl, fun _ => rfl⟩, fun _ => rfl, fun _ => rfl, fun _ => rfl, fun _ => rfl,
    fun _ => rfl, rfl, rfl⟩

end McsMutex

end Cmpth

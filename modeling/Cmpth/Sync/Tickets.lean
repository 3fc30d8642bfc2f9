import Cmpth.Sync.McsMutex
import Cmpth.Sync.Stranded

/-!
# The MCS Mutex Serves its Tickets in Order

The chain is the dual mutex's, so that what the tickets say of it is known. What
remains is that the chain's steps are taken by the ULTs as the chain has it: a
guard is returned only to a ULT whose node was woken, and each guard is dropped
once.

Both are about who has what. A suspended ULT's continuation is in its node, or on
its way to a run queue, or there; it is in a run queue only after its node was
woken. A guard in the callback of a wait is that wait's, and the condvar's
spinlock is held until the callback drops it: nobody can resume the waiter before
its callback has filled the slot and gone on to drop the guard.

## Main definitions

* `Fits`: Where the continuation of a ULT may be.
* `Ordered`: Which guards have been returned.
* `Inv`: The invariant.

## Theorems

* `Fits.congr`: Where a continuation may be depends on the node it locks.
* `Inv.quiet`, `Quiet.trans`: A step of the lock that hands nothing on.
* `kept`: What does not tell the new state of a ULT from the old is as it was.
* `quiet_modify`: The claims of all nodes but one are as they were.
* `Chained.step`: A step of the chain that keeps the numbering keeps the links.
* `inv_publish`, `inv_link`, `inv_follow`, `inv_take`, `inv_drop`: The steps of the lock, one by
  one.
* `Inv.behind`: The node that a releaser has found behind its own.
* `Ordered.acquire`: A guard that is returned is the next one's.
* `Inv.nowhere`: A ULT that runs is in no queue.
* `inv_lock`, `inv_wake`: The first and the last of the mutex's steps.
* `Inv.suspends`: Steps that leave the chain, the guards and the spinlocks alone.
* `Inv.handled`: The guard of a node is handled, and stays where it is in the chain.
* `inv_unlock`: The drop of a guard gives it up, to the next node or to nobody.
* `Inv.turn`: A call has waited for its turn: its node was woken, and its ticket comes next.
* `inv_resume`: A ULT that is resumed has its guard, or goes on to lock again.
-/

namespace Cmpth

namespace McsMutex

open DualMutex (Waits HasGuard Queued)

variable {T A C J : Type*}

/-- The node the ULT locks with. -/
def Pc.locks : Pc A C → Option A
  | .locking p => some p
  | .idle | .entering _ _ | .queued _ _ | .waiting _ | .relock => none

/-- The node whose guard is in the callback of the ULT's wait. -/
def Pc.parks : Pc A C → Option A
  | .entering _ p | .queued _ p => some p
  | .idle | .locking _ | .waiting _ | .relock => none

/-- The condvar whose spinlock that callback holds. -/
def Pc.spins : Pc A C → Option C
  | .entering c _ | .queued c _ => some c
  | .idle | .locking _ | .waiting _ | .relock => none

/-- Where the continuation of a ULT may be. -/
def Fits (woken : A → Option A) : Pc A C → Option (Spot C J) → Prop
  | .idle, x | .relock, x | .entering _ _, x => x = none
  | .locking p, x => x = none ∧ woken p = none ∨ x = some .run ∧ woken p ≠ none
  | .queued c _, x => x = some (.condvar c)
  | .waiting c, x => x = some (.condvar c) ∨ (∃ j, x = some (.popped j)) ∨
      (∃ j, x = some (.taken j)) ∨ x = some .run

/-- Guards are returned in the order of the tickets. -/
structure Ordered (l : DualMutex.State A) (serial : A → ℕ) (swaps : ℕ) (acquired : List ℕ) :
    Prop where
  range : acquired = List.range acquired.length
  guard : ∀ p, HasGuard l p → acquired.length = serial p + 1
  woken : ∀ p, Waits l p → (l.node p).wokenBy ≠ none → acquired.length = serial p
  empty : l.tail = none → acquired.length = swaps

/-- What the tickets say of the chain. -/
structure Chained (l : DualMutex.State A) (serial : A → ℕ) (swaps : ℕ) : Prop where
  tickets : ∃ lo, DualMutex.Inv l serial lo swaps
  linked : DualMutex.Linked l
  followed : DualMutex.Followed l

/-- The invariant of the mutex. -/
structure Inv (s : State T A C J) (place : T → Option (Spot C J)) : Prop where
  chained : Chained s.chain s.serial s.swaps
  ordered : Ordered s.chain s.serial s.swaps s.acquired
  owner : ∀ t p, (s.pc t).locks = some p ↔ Waits s.chain p ∧ s.ult p = t
  held : ∀ p, s.hold p ≠ .none ↔ (s.chain.node p).phase = .locked
  parked : ∀ t p, (s.pc t).parks = some p → s.hold p = .callback t
  spun : ∀ t c, (s.pc t).spins = some c ↔ s.spin c = some (.wait t)
  notifies : ∀ j c, (s.call j).lock = some c ↔ s.spin c = some (.notify j)
  placed : Placed s.tokens place
  fits : ∀ t, Fits (fun p => (s.chain.node p).wokenBy) (s.pc t) (place t)

variable {s : State T A C J} {place : T → Option (Spot C J)} {t u : T} {p n : A} {c : C} {j : J}
  {pc q : Pc A C} {x : Option (Spot C J)} {w w' : A → Option A}

theorem Fits.congr (h : Fits w pc x) (hw : ∀ p, pc.locks = some p → w' p = w p) :
    Fits w' pc x := by
  cases pc with
  | idle | relock | entering c p | queued c p | waiting c => exact h
  | locking p =>
      change _ ∧ w' p = none ∨ _ ∧ w' p ≠ none
      rw [hw p rfl]
      exact h

/-- A step of the chain that changes nobody's claim to the lock. -/
structure Quiet (l l' : DualMutex.State A) : Prop where
  waits : ∀ p, Waits l' p ↔ Waits l p
  guarded : ∀ p, HasGuard l' p ↔ HasGuard l p
  locked : ∀ p, (l'.node p).phase = .locked ↔ (l.node p).phase = .locked
  woken : ∀ p, (l'.node p).wokenBy = (l.node p).wokenBy
  tail : l'.tail = l.tail

theorem Inv.quiet (h : Inv s place) {l : DualMutex.State A} (hq : Quiet s.chain l)
    (hl : Chained l s.serial s.swaps) : Inv { s with chain := l } place where
  chained := hl
  ordered := by
    refine ⟨h.ordered.range, fun p hp => ?_, fun p hp hw => ?_, fun ht => ?_⟩
    · exact h.ordered.guard p ((hq.guarded p).mp hp)
    · rw [hq.woken p] at hw
      exact h.ordered.woken p ((hq.waits p).mp hp) hw
    · exact h.ordered.empty (hq.tail ▸ ht)
  owner := by
    intro t p
    rw [h.owner t p, hq.waits p]
  held := by
    intro p
    rw [h.held p, hq.locked p]
  parked := h.parked
  spun := h.spun
  notifies := h.notifies
  placed := h.placed
  fits := fun t => (h.fits t).congr fun p _ => hq.woken p

section

variable [DecidableEq T] [DecidableEq A] [DecidableEq C] [DecidableEq J]

omit [DecidableEq A] [DecidableEq C] in
/-- What does not tell the new state of a ULT from the old is as it was. -/
theorem kept {β : Type*} {pc : T → Pc A C} (f : Pc A C → β) (h : f q = f (pc t)) (u : T) :
    f (Function.update pc t q u) = f (pc u) := by
  by_cases hu : u = t
  · rw [hu, Function.update_self]
    exact h
  · rw [Function.update_of_ne hu]

variable {l : DualMutex.State A} {serial : A → ℕ} {swaps : ℕ}

/-- The claims of all nodes but one are as they were. -/
theorem quiet_modify (p : A) (f : DualMutex.Node A → DualMutex.Node A)
    (hw : (f (l.node p)).phase.waits = (l.node p).phase.waits)
    (hg : (f (l.node p)).phase.guarded = (l.node p).phase.guarded)
    (hl : (f (l.node p)).phase = .locked ↔ (l.node p).phase = .locked)
    (hb : (f (l.node p)).wokenBy = (l.node p).wokenBy) : Quiet l (l.modify p f) := by
  -- Of the one node the four claims are hypotheses.
  refine ⟨fun q => ?_, fun q => ?_, fun q => ?_, fun q => ?_, rfl⟩
  · unfold Waits
    rw [DualMutex.modify_node]
    by_cases hq : q = p
    · rw [if_pos hq, hq, hw]
    · rw [if_neg hq]
  · unfold HasGuard
    rw [DualMutex.modify_node]
    by_cases hq : q = p
    · rw [if_pos hq, hq, hg]
    · rw [if_neg hq]
  · rw [DualMutex.modify_node]
    by_cases hq : q = p
    · rw [if_pos hq, hq, hl]
    · rw [if_neg hq]
  · rw [DualMutex.modify_node]
    by_cases hq : q = p
    · rw [if_pos hq, hq, hb]
    · rw [if_neg hq]

omit [DecidableEq A] in
theorem Quiet.trans {l' l'' : DualMutex.State A} (h : Quiet l l') (h' : Quiet l' l'') :
    Quiet l l'' where
  waits p := (h'.waits p).trans (h.waits p)
  guarded p := (h'.guarded p).trans (h.guarded p)
  locked p := (h'.locked p).trans (h.locked p)
  woken p := (h'.woken p).trans (h.woken p)
  tail := h'.tail.trans h.tail

/-- A step of the chain that keeps the numbering keeps the links. -/
theorem Chained.step (h : Chained l serial swaps) {a : DualMutex.Action A}
    (hg : DualMutex.guard l a) {serial' : A → ℕ} {swaps' : ℕ}
    (hi : ∀ lo, DualMutex.Inv l serial lo swaps →
      ∃ lo', DualMutex.Inv (DualMutex.next l a) serial' lo' swaps') :
    Chained (DualMutex.next l a) serial' swaps' := by
  rcases h.tickets with ⟨lo, hinv⟩
  exact ⟨hi lo hinv, DualMutex.linked_next hinv h.linked hg,
    DualMutex.followed_next h.followed hg⟩

theorem inv_publish (h : Inv s place) (hg : guard s (.publish p)) :
    Inv (next s (.publish p)) place := by
  have hp : (s.chain.node p).phase = .enqueued := hg
  refine h.quiet ?_ (h.chained.step (a := .publish p) hg fun lo hi =>
    ⟨lo, DualMutex.inv_publish hi p hg⟩)
  refine quiet_modify p (fun n => { n with wait := some n.waiter, phase := .published })
    ?_ ?_ ?_ rfl
  · rw [hp]
    rfl
  · rw [hp]
    rfl
  · rw [hp]
    exact iff_of_false nofun nofun

theorem inv_link (h : Inv s place) (hg : guard s (.link p)) : Inv (next s (.link p)) place := by
  have hp : (s.chain.node p).phase = .published := hg
  -- Linked or found first: the claims of the node are the same.
  have hstep : ∀ l' : DualMutex.State A, (l'.node p).phase = .published →
      Quiet l' (l'.modify p fun n => { n with phase := .waiting }) := by
    intro l' hl'
    refine quiet_modify p _ ?_ ?_ ?_ rfl
    · rw [hl']
      rfl
    · rw [hl']
      rfl
    · rw [hl']
      exact iff_of_false nofun nofun
  refine h.quiet ?_ (h.chained.step (a := .link p) hg fun lo hi =>
    ⟨lo, DualMutex.inv_link hi p hg⟩)
  simp only [DualMutex.next]
  split
  next a ha =>
    have hlink : Quiet s.chain (s.chain.modify a fun n => { n with next := some p }) :=
      quiet_modify a _ rfl rfl Iff.rfl rfl
    refine hlink.trans (hstep _ ?_)
    rw [DualMutex.modify_node]
    split <;> exact hp
  next => exact hstep s.chain hp

theorem inv_follow (h : Inv s place) (hg : guard s (.follow p)) :
    Inv (next s (.follow p)) place := by
  have hp : (s.chain.node p).phase = .following := hg
  refine h.quiet ?_ (h.chained.step (a := .follow p) hg fun lo hi =>
    ⟨lo, DualMutex.inv_follow hi p hg⟩)
  simp only [DualMutex.next]
  split
  next n hn =>
    refine quiet_modify p _ ?_ ?_ ?_ rfl
    · rw [hp]
      rfl
    · rw [hp]
      rfl
    · rw [hp]
      exact iff_of_false (by simp) (by simp)
  next => exact ⟨fun _ => Iff.rfl, fun _ => Iff.rfl, fun _ => Iff.rfl, fun _ => rfl, rfl⟩

omit [DecidableEq T] [DecidableEq A] [DecidableEq C] [DecidableEq J] in
/-- The node that a releaser has found behind its own. -/
theorem Inv.behind (h : Inv s place)
    (hp : (s.chain.node p).phase = .notifying n ∨ ∃ w, (s.chain.node p).phase = .waking n w) :
    s.serial n = s.serial p + 1 ∧ (s.chain.node n).phase = .waiting ∧
      (s.chain.node n).wokenBy = none ∧ n ≠ p := by
  rcases h.chained.tickets with ⟨lo, hi⟩
  have hqueued : Queued s.chain p := by
    intro hfree
    rcases hp with hp | ⟨w, hp⟩ <;> rw [hfree] at hp <;> cases hp
  have hnext : (s.chain.node p).next = some n := by
    rcases hp with hp | ⟨w, hp⟩
    · exact hi.notifying p n hp
    · exact hi.waking p n w hp
  obtain ⟨-, hserial, hph, hwoken⟩ := hi.link p n hqueued hnext
  refine ⟨hserial, hph, hwoken, ?_⟩
  intro he
  rw [he] at hserial
  omega

theorem inv_take (h : Inv s place) : Inv (next s (.take p)) place := by
  unfold next
  dsimp only
  split
  next n hp =>
    have hg' : DualMutex.guard s.chain (.take p n) := hp
    refine h.quiet ?_ (h.chained.step hg' fun lo hi => ⟨lo, DualMutex.inv_take hi p n hg'⟩)
    -- The one behind is linked, and has not been woken by anybody.
    obtain ⟨-, hn, hwoken, hnp⟩ := h.behind (.inl hp)
    rcases h.chained.tickets with ⟨lo, hi⟩
    have hslot : Quiet s.chain (s.chain.modify n fun m => { m with wait := none }) :=
      quiet_modify n _ rfl rfl Iff.rfl rfl
    have hself : ((s.chain.modify n fun m => { m with wait := none }).node p).phase =
        .notifying n := by
      rw [DualMutex.modify_node, if_neg hnp.symm]
      exact hp
    simp only [DualMutex.next]
    split
    next w hw =>
      refine hslot.trans (quiet_modify p _ ?_ ?_ ?_ rfl)
      · rw [hself]
        rfl
      · rw [hself]
        rfl
      · rw [hself]
        exact iff_of_false (by simp) (by simp)
    next hempty => exact absurd hempty (hi.filled hp)
  next => exact h

omit [DecidableEq A] in
/-- A guard that is returned is the next one's. -/
theorem Ordered.acquire {l' : DualMutex.State A} {serial' : A → ℕ} {swaps' : ℕ}
    {acquired : List ℕ} (hr : acquired = List.range acquired.length)
    (hn : acquired.length = serial' p) (hone : ∀ q, HasGuard l' q → q = p)
    (hwoken : ∀ q, Waits l' q → (l'.node q).wokenBy = none) (ht : l'.tail ≠ none) :
    Ordered l' serial' swaps' (acquired ++ [serial' p]) := by
  refine ⟨?_, fun q hq => ?_, fun q hq hw => ?_, fun he => absurd he ht⟩
  · rw [List.length_append, List.length_singleton, List.range_succ, ← hn, ← hr]
  · rw [List.length_append, List.length_singleton, hone q hq, hn]
  · exact absurd (hwoken q hq) hw

omit [DecidableEq T] [DecidableEq A] [DecidableEq C] [DecidableEq J] in
/-- A ULT that runs is in no queue. -/
theorem Inv.nowhere (h : Inv s place) (ht : s.pc t = .idle ∨ s.pc t = .relock) :
    place t = none := by
  have hf := h.fits t
  rcases ht with ht | ht <;> rw [ht] at hf <;> exact hf

theorem inv_lock (h : Inv s place) (hg : guard s (.lock t p)) :
    Inv (next s (.lock t p)) place := by
  obtain ⟨ht, hfree⟩ := hg
  -- A ULT that locks is running, so it has no continuation and waits for nothing.
  have hplace := h.nowhere ht
  have hlocks : (s.pc t).locks = none := by
    rcases ht with ht | ht <;> rw [ht] <;> rfl
  have hparks : (s.pc t).parks = none := by
    rcases ht with ht | ht <;> rw [ht] <;> rfl
  have hspins : (s.pc t).spins = none := by
    rcases ht with ht | ht <;> rw [ht] <;> rfl
  have hwaits : ¬ Waits s.chain p := fun hw => DualMutex.queued_of_waits hw hfree
  have hhold : s.hold p = .none := by
    by_contra hne
    rw [(h.held p).mp hne] at hfree
    cases hfree
  -- The node is fresh: it is no guard's.
  have hfresh : ∀ q, s.hold q ≠ .none → q ≠ p := by
    intro q hq he
    rw [he] at hq
    exact hq hhold
  have hchained : Chained (DualMutex.next s.chain (.startLock p .ult))
      (Function.update s.serial p s.swaps) (s.swaps + 1) :=
    h.chained.step (a := .startLock p .ult) hfree fun lo hi =>
      ⟨lo, DualMutex.inv_startLock hi p .ult hfree⟩
  have hnode : ∀ q, q ≠ p → (DualMutex.next s.chain (.startLock p .ult)).node q =
      s.chain.node q := fun q hq => Function.update_of_ne hq _ _
  have hself : (DualMutex.next s.chain (.startLock p .ult)).node p =
      DualMutex.startNode .ult s.chain.tail := Function.update_self _ _ _
  rcases h.chained.tickets with ⟨lo, hi⟩
  unfold next
  dsimp only
  split
  next htail =>
    -- Nobody is queued.
    have hempty : ∀ q, ¬ Queued s.chain q := by
      intro q hq
      have hrange := hi.range q hq
      have := hi.tail_none htail
      omega
    have hlocked : ((DualMutex.next s.chain (.startLock p .ult)).node p).phase = .locked := by
      rw [hself, htail]
      rfl
    have hnone : ∀ q, ¬ Waits (DualMutex.next s.chain (.startLock p .ult)) q := by
      intro q hq
      by_cases hqp : q = p
      · rw [hqp, Waits, hlocked] at hq
        cases hq
      · rw [Waits, hnode q hqp] at hq
        exact hempty q (DualMutex.queued_of_waits hq)
    have hordered : Ordered (DualMutex.next s.chain (.startLock p .ult))
        (Function.update s.serial p s.swaps) (s.swaps + 1)
        (s.acquired ++ [Function.update s.serial p s.swaps p]) := by
      refine Ordered.acquire h.ordered.range ?_ (fun q hq => ?_) (fun q hq => ?_) (by rintro ⟨⟩)
      · rw [Function.update_self]
        exact h.ordered.empty htail
      · by_contra hqp
        rw [HasGuard, hnode q hqp] at hq
        exact hempty q (DualMutex.queued_of_guard hq)
      · exact absurd hq (hnone q)
    refine ⟨hchained, hordered, fun u q => ?_, fun q => ?_, fun u q hq => ?_, fun u c => ?_,
      h.notifies, h.placed, fun u => ?_⟩
    · change (Function.update s.pc t .idle u).locks = some q ↔ _
      rw [kept Pc.locks (q := .idle) hlocks.symm, h.owner u q]
      refine iff_of_false (fun hw => ?_) (fun hw => hnone q hw.1)
      exact hempty q (DualMutex.queued_of_waits hw.1)
    · change Function.update s.hold p .live q ≠ .none ↔ _
      by_cases hqp : q = p
      · rw [hqp, Function.update_self]
        exact iff_of_true (by simp) hlocked
      · rw [Function.update_of_ne hqp, h.held q, ← hnode q hqp]
        rfl
    · change (Function.update s.pc t .idle u).parks = some q at hq
      rw [kept Pc.parks (q := .idle) hparks.symm] at hq
      have hold := h.parked u q hq
      change Function.update s.hold p .live q = _
      rw [Function.update_of_ne (hfresh q (by rw [hold]; simp))]
      exact hold
    · change (Function.update s.pc t .idle u).spins = some c ↔ _
      rw [kept Pc.spins (q := .idle) hspins.symm]
      exact h.spun u c
    · change Fits _ (Function.update s.pc t .idle u) _
      by_cases hu : u = t
      · rw [hu, Function.update_self]
        exact hplace
      · rw [Function.update_of_ne hu]
        refine (h.fits u).congr fun q hq => ?_
        exact absurd ((h.owner u q).mp hq).1 fun hw => hempty q (DualMutex.queued_of_waits hw)
  next z htail =>
    -- Somebody is, and the ULT waits behind the last one.
    have hphase : ((DualMutex.next s.chain (.startLock p .ult)).node p).phase = .enqueued := by
      rw [hself, htail]
      rfl
    have hother : ∀ q, Waits (DualMutex.next s.chain (.startLock p .ult)) q ↔
        Waits s.chain q ∨ q = p := by
      intro q
      by_cases hqp : q = p
      · rw [hqp]
        refine iff_of_true ?_ (.inr rfl)
        rw [Waits, hphase]
        rfl
      · rw [Waits, hnode q hqp, or_iff_left hqp]
        rfl
    refine ⟨hchained, ⟨h.ordered.range, fun q hq => ?_, fun q hq hw => ?_, (by rintro ⟨⟩)⟩,
      fun u q => ?_, fun q => ?_, fun u q hq => ?_, fun u c => ?_, h.notifies,
      h.placed, fun u => ?_⟩
    · have hqp : q ≠ p := by
        intro he
        rw [he, HasGuard, hphase] at hq
        cases hq
      rw [HasGuard, hnode q hqp] at hq
      change s.acquired.length = Function.update s.serial p s.swaps q + 1
      rw [Function.update_of_ne hqp]
      exact h.ordered.guard q hq
    · have hqp : q ≠ p := by
        intro he
        rw [he, hself] at hw
        exact hw rfl
      rw [hnode q hqp] at hw
      change s.acquired.length = Function.update s.serial p s.swaps q
      rw [Function.update_of_ne hqp]
      exact h.ordered.woken q (((hother q).mp hq).resolve_right hqp) hw
    · change (Function.update s.pc t (.locking p) u).locks = some q ↔
        _ ∧ Function.update s.ult p t q = u
      rw [hother q]
      by_cases hqp : q = p
      · rw [hqp, Function.update_self]
        by_cases hu : u = t
        · rw [hu, Function.update_self]
          exact iff_of_true rfl ⟨.inr rfl, rfl⟩
        · rw [Function.update_of_ne hu, h.owner u p]
          exact iff_of_false (fun hw => hwaits hw.1) fun hw => hu hw.2.symm
      · rw [Function.update_of_ne hqp, or_iff_left hqp]
        by_cases hu : u = t
        · rw [hu, Function.update_self, ← h.owner t q, hlocks]
          exact iff_of_false (fun he => hqp (Option.some.inj he).symm) (by simp)
        · rw [Function.update_of_ne hu]
          exact h.owner u q
    · by_cases hqp : q = p
      · rw [hqp]
        exact iff_of_false (fun hne => hne hhold) fun hl => by rw [hphase] at hl; cases hl
      · rw [hnode q hqp]
        exact h.held q
    · change (Function.update s.pc t (.locking p) u).parks = some q at hq
      rw [kept Pc.parks (q := .locking p) hparks.symm] at hq
      exact h.parked u q hq
    · change (Function.update s.pc t (.locking p) u).spins = some c ↔ _
      rw [kept Pc.spins (q := .locking p) hspins.symm]
      exact h.spun u c
    · change Fits _ (Function.update s.pc t (.locking p) u) _
      by_cases hu : u = t
      · rw [hu, Function.update_self]
        exact .inl ⟨hplace, congrArg DualMutex.Node.wokenBy hself⟩
      · rw [Function.update_of_ne hu]
        refine (h.fits u).congr fun q hq => ?_
        have hqp : q ≠ p := by
          intro he
          rw [he] at hq
          exact hwaits ((h.owner u p).mp hq).1
        exact congrArg DualMutex.Node.wokenBy (hnode q hqp)

omit [DecidableEq T] [DecidableEq A] [DecidableEq C] [DecidableEq J] in
/-- Steps that leave the chain, the guards and the spinlocks alone. -/
theorem Inv.suspends (h : Inv s place) {f : Spot C J → List T} {place' : T → Option (Spot C J)}
    {pc' : T → Pc A C} (hlocks : ∀ u, (pc' u).locks = (s.pc u).locks)
    (hparks : ∀ u, (pc' u).parks = (s.pc u).parks) (hspins : ∀ u, (pc' u).spins = (s.pc u).spins)
    (hplaced : Placed f place')
    (hfits : ∀ u, Fits (fun p => (s.chain.node p).wokenBy) (pc' u) (place' u)) :
    Inv { s with tokens := f, pc := pc' } place' where
  chained := h.chained
  ordered := h.ordered
  owner := by
    intro u p
    rw [← h.owner u p, ← hlocks u]
  held := h.held
  parked := by
    intro u p hp
    exact h.parked u p ((hparks u).symm.trans hp)
  spun := by
    intro u c
    rw [← h.spun u c, ← hspins u]
  notifies := h.notifies
  placed := hplaced
  fits := hfits

omit [DecidableEq T] [DecidableEq C] [DecidableEq J] in
/-- The guard of a node is handled, and stays where it is in the chain. -/
theorem Inv.handled (h : Inv s place) {d : Hold T} (hp : s.hold p ≠ .none) (hd : d ≠ .none)
    (hpark : ∀ u, (s.pc u).parks ≠ some p) :
    Inv { s with hold := Function.update s.hold p d } place where
  chained := h.chained
  ordered := h.ordered
  owner := h.owner
  held := by
    intro q
    rw [← h.held q]
    change Function.update s.hold p d q ≠ _ ↔ _
    -- Its node has the guard before and after.
    by_cases hq : q = p
    · rw [hq, Function.update_self]
      exact iff_of_true hd hp
    · rw [Function.update_of_ne hq]
  parked := by
    intro u q hq
    have hqp : q ≠ p := by
      intro he
      rw [he] at hq
      exact hpark u hq
    change Function.update s.hold p d q = _
    rw [Function.update_of_ne hqp]
    exact h.parked u q hq
  spun := h.spun
  notifies := h.notifies
  placed := h.placed
  fits := h.fits

theorem inv_drop (h : Inv s place) (hg : guard s (.drop p)) : Inv (next s (.drop p)) place := by
  have hlive : s.hold p = .live := hg
  refine h.handled (by rw [hlive]; nofun) nofun fun u hu => ?_
  have hhold := h.parked u p hu
  rw [hlive] at hhold
  cases hhold

/-- The drop of a guard gives it up, to the next node or to nobody. -/
theorem inv_unlock (h : Inv s place) (hg : guard s (.unlock p)) :
    Inv (next s (.unlock p)) place := by
  have hhold : s.hold p = .dropping := hg
  have hp : (s.chain.node p).phase = .locked := (h.held p).mp (by rw [hhold]; simp)
  have hguard : HasGuard s.chain p := by
    rw [HasGuard, hp]
    rfl
  have hchained := h.chained.step (a := .unlock p) hp fun lo hi => DualMutex.inv_unlock hi p hp
  -- Whether the compare and exchange succeeds or not, nobody else is affected.
  have hother : ∀ q, q ≠ p → (DualMutex.next s.chain (.unlock p)).node q = s.chain.node q := by
    intro q hq
    simp only [DualMutex.next]
    split
    · exact Function.update_of_ne hq _ _
    · exact Function.update_of_ne hq _ _
  have hself : ((DualMutex.next s.chain (.unlock p)).node p).phase.waits = false ∧
      ((DualMutex.next s.chain (.unlock p)).node p).phase ≠ .locked ∧
      ((DualMutex.next s.chain (.unlock p)).node p).wokenBy = (s.chain.node p).wokenBy := by
    simp only [DualMutex.next]
    split
    · change (Function.update s.chain.node p _ p).phase.waits = _ ∧
        (Function.update s.chain.node p _ p).phase ≠ _ ∧
        (Function.update s.chain.node p _ p).wokenBy = _
      rw [Function.update_self]
      exact ⟨rfl, (by simp), rfl⟩
    · rw [DualMutex.modify_node, if_pos rfl]
      exact ⟨rfl, (by simp), rfl⟩
  -- Nobody starts to wait by it, and nobody is woken by it.
  have hwaits : ∀ q, Waits (DualMutex.next s.chain (.unlock p)) q ↔ Waits s.chain q := by
    intro q
    by_cases hq : q = p
    · rw [hq, Waits, Waits, hself.1, hp]
      exact Iff.rfl
    · rw [Waits, Waits, hother q hq]
  have hwoken : ∀ q, ((DualMutex.next s.chain (.unlock p)).node q).wokenBy =
      (s.chain.node q).wokenBy := by
    intro q
    by_cases hq : q = p
    · rw [hq]
      exact hself.2.2
    · rw [hother q hq]
  refine ⟨hchained, ⟨h.ordered.range, fun q hq => ?_, fun q hq hw => ?_, fun ht => ?_⟩,
    fun u q => ?_, fun q => ?_, fun u q hq => ?_, h.spun, h.notifies, h.placed, fun u => ?_⟩
  · by_cases hqp : q = p
    · rw [hqp]
      exact h.ordered.guard p hguard
    · have hq' : HasGuard s.chain q := by
        rw [HasGuard, ← hother q hqp]
        exact hq
      exact h.ordered.guard q hq'
  · have hw' : (s.chain.node q).wokenBy ≠ none := by
      rw [← hwoken q]
      exact hw
    exact h.ordered.woken q ((hwaits q).mp hq) hw'
  · -- With its node at the tail every swap has acquired.
    by_cases htail : s.chain.tail = some p
    · rcases h.chained.tickets with ⟨lo, hi⟩
      have hlast := (hi.tail_some p htail).2
      have hcount := h.ordered.guard p hguard
      change s.acquired.length = s.swaps
      omega
    · change (DualMutex.next s.chain (.unlock p)).tail = none at ht
      simp only [DualMutex.next, if_neg htail] at ht
      exact h.ordered.empty ht
  · exact (h.owner u q).trans (and_congr_left' (hwaits q).symm)
  · change Function.update s.hold p .none q ≠ _ ↔ _
    by_cases hqp : q = p
    · rw [hqp, Function.update_self]
      exact iff_of_false (fun hne => hne rfl) hself.2.1
    · rw [Function.update_of_ne hqp, h.held q]
      change _ ↔ ((DualMutex.next s.chain (.unlock p)).node q).phase = _
      rw [hother q hqp]
  · have hold := h.parked u q hq
    have hqp : q ≠ p := by
      intro he
      rw [he, hhold] at hold
      cases hold
    change Function.update s.hold p .none q = _
    rw [Function.update_of_ne hqp]
    exact hold
  · exact (h.fits u).congr fun q _ => hwoken q

omit [DecidableEq T] [DecidableEq A] [DecidableEq C] [DecidableEq J] in
/-- A call has waited for its turn: its node was woken, and its ticket comes next. -/
theorem Inv.turn (h : Inv s place) (hw : Waits s.chain p)
    (hwoken : (s.chain.node p).wokenBy ≠ none) :
    (s.chain.node p).phase = .waiting ∧ ∀ q, Queued s.chain q → q ≠ p →
      ¬ HasGuard s.chain q ∧ (Waits s.chain q → (s.chain.node q).wokenBy = none) := by
  rcases h.chained.tickets with ⟨lo, hi⟩
  obtain ⟨a, -, ⟨hnone, -, -⟩ | ⟨hph, -, hlo⟩⟩ := hi.waits p hw
  · exact absurd hnone hwoken
  · refine ⟨hph, fun q hq hqp => ⟨fun hg => hqp ?_, fun hwq => ?_⟩⟩
    · exact hi.inj q p hq (DualMutex.queued_of_waits hw) ((hi.head q hg).trans hlo.symm)
    · obtain ⟨b, -, ⟨hnone, -, -⟩ | ⟨-, -, hlo'⟩⟩ := hi.waits q hwq
      · exact hnone
      · exact absurd (hi.inj q p hq (DualMutex.queued_of_waits hw) (hlo'.trans hlo.symm)) hqp

/-- A ULT that is resumed has its guard, or goes on to lock again. -/
theorem inv_resume (h : Inv s place) (hg : guard s (.resume t)) :
    ∃ place', Inv (next s (.resume t)) place' := by
  have hplace : place t = some .run := h.placed.mem.mp hg
  have hf := h.fits t
  rw [hplace] at hf
  have hplaced : Placed (Function.update s.tokens .run ((s.tokens .run).erase t))
      (Function.update place t none) := h.placed.take hg
  refine ⟨Function.update place t none, ?_⟩
  unfold next
  dsimp only
  split
  next p hpc =>
    rw [hpc] at hf
    -- A ULT that locks runs again once its node has been woken, and has its turn.
    have hwoken : (s.chain.node p).wokenBy ≠ none := by
      rcases hf with ⟨he, -⟩ | ⟨-, hw⟩
      · cases he
      · exact hw
    obtain ⟨hwaits, hult⟩ := (h.owner t p).mp (by rw [hpc]; rfl)
    obtain ⟨hph, hothers⟩ := h.turn hwaits hwoken
    have hchained : Chained (DualMutex.next s.chain (.resume p)) s.serial s.swaps := by
      rcases h.chained.tickets with ⟨lo, hi⟩
      exact ⟨⟨lo, DualMutex.inv_locked hi p hph hwoken⟩,
        DualMutex.linked_modify h.chained.linked p (fun n => { n with phase := .locked })
          (by simp) rfl rfl,
        DualMutex.followed_modify h.chained.followed p (fun n => { n with phase := .locked })
          (by simp)⟩
    have hnode : ∀ q, q ≠ p → (DualMutex.next s.chain (.resume p)).node q = s.chain.node q :=
      fun q hq => Function.update_of_ne hq _ _
    have hself : (DualMutex.next s.chain (.resume p)).node p =
        { s.chain.node p with phase := .locked } := Function.update_self _ _ _
    have hordered : Ordered (DualMutex.next s.chain (.resume p)) s.serial s.swaps
        (s.acquired ++ [s.serial p]) := by
      refine Ordered.acquire h.ordered.range (h.ordered.woken p hwaits hwoken) (fun q hq => ?_)
        (fun q hq => ?_) (fun ht => ?_)
      · by_contra hqp
        rw [HasGuard, hnode q hqp] at hq
        exact (hothers q (DualMutex.queued_of_guard hq) hqp).1 hq
      · have hqp : q ≠ p := by
          intro he
          rw [he, Waits, hself] at hq
          cases hq
        rw [hnode q hqp]
        rw [Waits, hnode q hqp] at hq
        exact (hothers q (DualMutex.queued_of_waits hq) hqp).2 hq
      · rcases h.chained.tickets with ⟨lo, hi⟩
        have hrange := hi.range p (DualMutex.queued_of_waits hwaits)
        have := hi.tail_none ht
        omega
    refine ⟨hchained, hordered, fun u q => ?_, fun q => ?_, fun u q hq => ?_, fun u c => ?_,
      h.notifies, hplaced, fun u => ?_⟩
    · change (Function.update s.pc t .idle u).locks = some q ↔
        Waits (DualMutex.next s.chain (.resume p)) q ∧ s.ult q = u
      by_cases hqp : q = p
      · have hnot : ¬ Waits (DualMutex.next s.chain (.resume p)) p := by
          intro hw
          rw [Waits, hself] at hw
          cases hw
        rw [hqp]
        refine iff_of_false (fun he => ?_) fun hw => hnot hw.1
        by_cases hu : u = t
        · rw [hu, Function.update_self] at he
          cases he
        · rw [Function.update_of_ne hu] at he
          exact hu (((h.owner u p).mp he).2.symm.trans hult)
      · rw [Waits, hnode q hqp]
        by_cases hu : u = t
        · rw [hu, Function.update_self]
          refine iff_of_false (by rintro ⟨⟩) fun hw => ?_
          have he := (h.owner t q).mpr hw
          rw [hpc] at he
          exact hqp (Option.some.inj he).symm
        · rw [Function.update_of_ne hu]
          exact h.owner u q
    · change Function.update s.hold p .live q ≠ _ ↔
        ((DualMutex.next s.chain (.resume p)).node q).phase = _
      by_cases hqp : q = p
      · rw [hqp, Function.update_self, hself]
        exact iff_of_true (by simp) rfl
      · rw [Function.update_of_ne hqp, hnode q hqp]
        exact h.held q
    · change (Function.update s.pc t .idle u).parks = some q at hq
      rw [kept Pc.parks (q := .idle) (by rw [hpc]; rfl)] at hq
      have hold := h.parked u q hq
      have hqp : q ≠ p := by
        intro he
        have hl := (h.held q).mp (by rw [hold]; simp)
        rw [he, hph] at hl
        cases hl
      change Function.update s.hold p .live q = _
      rw [Function.update_of_ne hqp]
      exact hold
    · change (Function.update s.pc t .idle u).spins = some c ↔ _
      rw [kept Pc.spins (q := .idle) (by rw [hpc]; rfl)]
      exact h.spun u c
    · change Fits _ (Function.update s.pc t .idle u) (Function.update place t none u)
      by_cases hu : u = t
      · rw [hu, Function.update_self, Function.update_self]
        exact rfl
      · rw [Function.update_of_ne hu, Function.update_of_ne hu]
        refine (h.fits u).congr fun q hq => ?_
        have hqp : q ≠ p := by
          intro he
          rw [he] at hq
          exact hu (((h.owner u p).mp hq).2.symm.trans hult)
        exact congrArg DualMutex.Node.wokenBy (hnode q hqp)
  next c hpc =>
    -- A ULT that waits on a condvar has to lock the mutex again.
    refine h.suspends (kept Pc.locks (q := .relock) (by rw [hpc]; rfl))
      (kept Pc.parks (q := .relock) (by rw [hpc]; rfl))
      (kept Pc.spins (q := .relock) (by rw [hpc]; rfl)) hplaced fun u => ?_
    by_cases hu : u = t
    · rw [hu, Function.update_self, Function.update_self]
      exact rfl
    · rw [Function.update_of_ne hu, Function.update_of_ne hu]
      exact h.fits u
  next hlock hwait =>
    -- No other ULT is in a run queue.
    cases hpc : s.pc t with
    | locking p => exact absurd hpc (hlock p)
    | waiting c => exact absurd hpc (hwait c)
    | idle | relock | entering c p | queued c p =>
        rw [hpc] at hf
        cases hf

/-- The wake of the node behind hands the lock on. -/
theorem inv_wake (h : Inv s place) : ∃ place', Inv (next s (.wake p)) place' := by
  unfold next
  dsimp only
  split
  next n w hp =>
    obtain ⟨hserial, hph, hnone, hnp⟩ := h.behind (.inr ⟨w, hp⟩)
    -- The node behind waits, and its ULT has no continuation anywhere else.
    have hwaits : Waits s.chain n := by
      rw [Waits, hph]
      rfl
    have hguard : HasGuard s.chain p := by
      rw [HasGuard, hp]
      rfl
    have hpc := (h.owner (s.ult n) n).mpr ⟨hwaits, rfl⟩
    have hplace : place (s.ult n) = none := by
      have hf := h.fits (s.ult n)
      cases hpc' : s.pc (s.ult n) with
      | locking q =>
          rw [hpc'] at hpc hf
          have hqn : q = n := Option.some.inj hpc
          rcases hf with ⟨hx, -⟩ | ⟨-, hw⟩
          · exact hx
          · rw [hqn] at hw
            exact absurd hnone hw
      | idle | relock | entering c q | queued c q | waiting c =>
          rw [hpc'] at hpc
          cases hpc
    have hchained : Chained (DualMutex.next s.chain (.wake p n w)) s.serial s.swaps :=
      h.chained.step (a := .wake p n w) hp fun lo hi => ⟨lo + 1, DualMutex.inv_wake hi p n w hp⟩
    have hother : ∀ q, q ≠ p → q ≠ n →
        (DualMutex.next s.chain (.wake p n w)).node q = s.chain.node q := by
      intro q hqp hqn
      simp only [DualMutex.next, DualMutex.modify_node, if_neg hqp, if_neg hqn]
    have hself : (DualMutex.next s.chain (.wake p n w)).node p =
        { s.chain.node p with phase := .free } := by
      simp only [DualMutex.next, DualMutex.modify_node, if_pos, if_neg hnp.symm]
    have hn : (DualMutex.next s.chain (.wake p n w)).node n =
        { s.chain.node n with wokenBy := some p } := by
      simp only [DualMutex.next, DualMutex.modify_node, if_pos, if_neg hnp]
    have hphases : ∀ q, q ≠ p → ((DualMutex.next s.chain (.wake p n w)).node q).phase =
        (s.chain.node q).phase := by
      intro q hqp
      by_cases hqn : q = n
      · rw [hqn, hn]
      · rw [hother q hqp hqn]
    have hwaits' : ∀ q, Waits (DualMutex.next s.chain (.wake p n w)) q ↔ Waits s.chain q := by
      intro q
      by_cases hqp : q = p
      · rw [hqp, Waits, Waits, hself, hp]
        exact Iff.rfl
      · rw [Waits, Waits, hphases q hqp]
    -- The ticket of the node behind is the next one.
    rcases h.chained.tickets with ⟨lo, hi⟩
    have hhead := hi.head p hguard
    refine ⟨_, hchained, ⟨h.ordered.range, fun q hq => ?_, fun q hq hw => ?_, h.ordered.empty⟩,
      fun u q => ?_, fun q => ?_, h.parked, h.spun, h.notifies, h.placed.put hplace .run,
      fun u => ?_⟩
    · -- There is no guard now.
      have hqp : q ≠ p := by
        intro he
        rw [he, HasGuard, hself] at hq
        cases hq
      rw [HasGuard, hphases q hqp] at hq
      exact absurd (hi.inj q p (DualMutex.queued_of_guard hq) (DualMutex.queued_of_guard hguard)
        ((hi.head q hq).trans hhead.symm)) hqp
    · by_cases hqn : q = n
      · have hcount := h.ordered.guard p hguard
        rw [hqn]
        exact hcount.trans hserial.symm
      · have hq' := (hwaits' q).mp hq
        have hqp : q ≠ p := by
          intro he
          rw [he, Waits, hp] at hq'
          cases hq'
        have hw' : (s.chain.node q).wokenBy ≠ none := by
          rw [← hother q hqp hqn]
          exact hw
        exact h.ordered.woken q hq' hw'
    · exact (h.owner u q).trans (and_congr_left' (hwaits' q).symm)
    · refine (h.held q).trans ?_
      change _ ↔ ((DualMutex.next s.chain (.wake p n w)).node q).phase = _
      by_cases hqp : q = p
      · rw [hqp, hself, hp]
        exact iff_of_false (by simp) (by simp)
      · rw [hphases q hqp]
    · change Fits (fun q => ((DualMutex.next s.chain (.wake p n w)).node q).wokenBy) (s.pc u)
        (Function.update place (s.ult n) (some .run) u)
      by_cases hu : u = s.ult n
      · rw [hu, Function.update_self]
        cases hpc' : s.pc (s.ult n) with
        | locking q =>
            rw [hpc'] at hpc
            have hqn : q = n := Option.some.inj hpc
            refine .inr ⟨rfl, ?_⟩
            rw [hqn]
            change ((DualMutex.next s.chain (.wake p n w)).node n).wokenBy ≠ none
            rw [hn]
            simp
        | idle | relock | entering c q | queued c q | waiting c =>
            rw [hpc'] at hpc
            cases hpc
      · rw [Function.update_of_ne hu]
        refine (h.fits u).congr fun q hq => ?_
        obtain ⟨hqw, hqu⟩ := (h.owner u q).mp hq
        have hqn : q ≠ n := by
          intro he
          rw [he] at hqu
          exact hu hqu.symm
        have hqp : q ≠ p := by
          intro he
          rw [he, Waits, hp] at hqw
          cases hqw
        exact congrArg DualMutex.Node.wokenBy (hother q hqp hqn)
  next => exact ⟨place, h⟩

end

end McsMutex

end Cmpth

import Cmpth.Sync.Stranded

/-!
# Dropping a Lock Future

`DualMutex`'s asynchronous `lock`, with futures that are dropped while they are
pending.

Before its first poll a lock future has no node. The first poll swaps a node into
`tail`, registers the waker and stores the link, all in one go, so that a future
that is dropped later is one whose node is queued and linked. Nothing repairs the
queue then: the node is freed with the future, while the predecessor's `next` still
leads to it, and `tail` does if it is the last. Its predecessor goes on to take a
waker out of freed memory and to hand the lock to nobody. If the lock had been
handed to it already, nobody drops the guard it has not yet returned.

What is in freed memory is left as it was here, until the address is used again.

## Main definitions

* `State`, `Action`, `system`: The dual mutex with futures that can be dropped.
* `CancelSafe`: What cancel safety asks of a state.
* `Keeps`: A step that neither drops a queued future nor polls one early.

## Theorems

* `Inv.cancelSafe`, `inv_init`: The invariant, and what it gives.
* `inv_next`: Every step that keeps the queue whole keeps the invariant.
* `cancelSafe_of_keeps`: Runs of such steps are cancel safe throughout.
* `woken_drop`: To drop a woken future strands the lock at once.
* `queued_drop`: To drop a queued one has the lock handed to it.
* `cancelSafe_handedOn`: A lock that is handed on.
* `dropped_strands`: Runs that do either.
-/

namespace Cmpth

namespace DualMutex

namespace Cancel

/-- The lock, and which nodes' futures have been dropped. `handed` records those of
    them that were woken after that. -/
structure State (A : Type*) where
  lock : DualMutex.State A
  dropped : A → Bool
  handed : List A

/-- A step of the lock, or a future that is dropped. -/
inductive Action (A : Type*) where
  /-- A step of the lock. -/
  | step (a : DualMutex.Action A)
  /-- A lock future is dropped before its first poll. -/
  | dropNew
  /-- A pending lock future is dropped, with its node. -/
  | dropPending (p : A)
  deriving DecidableEq, Repr

variable {A : Type*}

section

variable [DecidableEq A]

/-- When an action is enabled. -/
def guard (s : State A) : Action A → Prop
  | .step a => DualMutex.guard s.lock a
  | .dropNew => True
  | .dropPending p => (s.lock.node p).phase = .waiting ∧ (s.lock.node p).waiter = .async

instance (s : State A) : ∀ a : Action A, Decidable (guard s a)
  | .step a => inferInstanceAs (Decidable (DualMutex.guard s.lock a))
  | .dropNew => inferInstanceAs (Decidable True)
  | .dropPending _ => inferInstanceAs (Decidable (_ ∧ _))

/-- The state an action leads to. -/
def next (s : State A) : Action A → State A
  | .step a =>
      { lock := DualMutex.next s.lock a
        dropped := match a with
          | .startLock p _ => Function.update s.dropped p false
          | _ => s.dropped
        handed := match a with
          | .wake _ n _ => if s.dropped n = true then n :: s.handed else s.handed
          | _ => s.handed }
  | .dropNew => s
  | .dropPending p =>
      { s with
        lock := s.lock.modify p fun n => { n with phase := .free }
        dropped := Function.update s.dropped p true }

/-- The dual mutex with futures that can be dropped. -/
def system : System (State A) (Action A) where
  init s := DualMutex.init s.lock ∧ (∀ p, s.dropped p = false) ∧ s.handed = []
  guard := guard
  next := next

instance (s : State A) (a : Action A) : Decidable ((system).guard s a) :=
  inferInstanceAs (Decidable (guard s a))

end

/-- What cancel safety asks of a state. -/
structure CancelSafe (s : State A) : Prop where
  /-- The lock was never handed to the node of a dropped future. -/
  handed : s.handed = []
  /-- While `tail` is not null a guard is live, or somebody has been woken for it. -/
  served : s.lock.tail ≠ none → ∃ p, HasGuard s.lock p ∨
    (s.lock.node p).phase = .waiting ∧ (s.lock.node p).wokenBy ≠ none
  /-- A link that a releaser waits for is about to be written. -/
  reached : ∀ p, (s.lock.node p).phase = .following → (s.lock.node p).next ≠ none ∨
    ∃ q, (s.lock.node q).prev = some p ∧
      ((s.lock.node q).phase = .enqueued ∨ (s.lock.node q).phase = .published)

/-- No future is dropped while its node is queued, and none is polled before its
    node was woken. -/
def Keeps (s : State A) : Action A → Prop
  | .step a => PollsWoken s.lock a
  | .dropNew => True
  | .dropPending _ => False

instance (s : State A) : ∀ a : Action A, Decidable (Keeps s a)
  | .step (.poll p) => inferInstanceAs (Decidable ((s.lock.node p).wokenBy ≠ none))
  | .step (.startLock ..) | .step (.publish _) | .step (.link _) | .step (.resume _)
  | .step (.unlock _) | .step (.follow _) | .step (.take ..) | .step (.wake ..) | .dropNew =>
      inferInstanceAs (Decidable True)
  | .dropPending _ => inferInstanceAs (Decidable False)

/-- No future has been dropped from the queue. -/
structure Inv (s : State A) : Prop where
  tickets : ∃ τ lo hi, DualMutex.Inv s.lock τ lo hi
  linked : Linked s.lock
  followed : Followed s.lock
  dropped : ∀ p, s.dropped p = false
  handed : s.handed = []

theorem Inv.cancelSafe {s : State A} (h : Inv s) : CancelSafe s := by
  rcases h.tickets with ⟨τ, lo, hi, hinv⟩
  refine ⟨h.handed, fun ht => ?_, fun p hp => hinv.reached h.linked h.followed hp⟩
  rcases hinv.served ht with ⟨p, -, hp⟩
  exact ⟨p, hp⟩

section

variable [DecidableEq A] {s : State A}

/-- Every step that keeps the queue whole keeps the invariant. -/
theorem inv_next {a : Action A} (h : Inv s) (hg : guard s a) (hk : Keeps s a) :
    Inv (next s a) := by
  -- A drop before the first poll leaves nothing; one of a queued lock is what the condition
  -- excludes.
  cases a with
  | dropNew => exact h
  | dropPending p => exact hk.elim
  | step a =>
      rcases h.tickets with ⟨τ, lo, hi, hinv⟩
      refine ⟨DualMutex.inv_next a h.tickets hg hk, linked_next hinv h.linked hg,
        followed_next h.followed hg, fun p => ?_, ?_⟩
      · cases a with
        | startLock q w =>
            change Function.update s.dropped q false p = false
            by_cases hp : p = q
            · rw [hp, Function.update_self]
            · rw [Function.update_of_ne hp]
              exact h.dropped p
        | publish q | link q | resume q | poll q | unlock q | follow q | take q n | wake q n w =>
            exact h.dropped p
      · cases a with
        | wake q n w =>
            change (if s.dropped n = true then n :: s.handed else s.handed) = []
            rw [if_neg (by rw [h.dropped n]; nofun)]
            exact h.handed
        | startLock q w | publish q | link q | resume q | poll q | unlock q | follow q
        | take q n => exact h.handed

theorem inv_init (hi : (system).init s) : Inv s := by
  obtain ⟨hlock, hdropped, hhanded⟩ := hi
  refine ⟨⟨fun _ => 0, 0, 0, DualMutex.inv_init hlock⟩, fun q a hq => ?_, fun p hp => ?_,
    hdropped, hhanded⟩
  · rw [hlock.2 q] at hq
    cases hq
  · rw [hlock.2 p] at hp
    cases hp

/-- With any number of threads and lock futures, a run that drops no future from the
    queue, and polls none before its node was woken, is cancel safe in every state. -/
theorem cancelSafe_of_keeps (s : State A) (as : List (Action A)) (hi : (system).init s)
    (hl : (system).Legal s as) (hk : (system).Along Keeps s as) :
    (system).Throughout CancelSafe s as :=
  System.throughout_of_along system (I := Inv) (fun _ hI => hI.cancelSafe)
    (fun _ _ hI hg hc => inv_next hI hg hc) as s (inv_init hi) hl hk

/-- Once the lock has been handed to a future, nobody else has it, so that to drop
    the future strands the lock. -/
theorem woken_drop (h : Inv s) {p : A} (hg : guard s (.dropPending p))
    (hwoken : (s.lock.node p).wokenBy ≠ none) : ¬ CancelSafe (next s (.dropPending p)) := by
  rcases h.tickets with ⟨τ, lo, hi, hinv⟩
  have hph : (s.lock.node p).phase = .waiting := hg.1
  have hwaits : Waits s.lock p := by
    rw [Waits, hph]
    rfl
  have hqueued := queued_of_waits hwaits
  have hlo : τ p = lo := by
    obtain ⟨a, -, ⟨hnone, -, -⟩ | ⟨-, -, hlo⟩⟩ := hinv.waits p hwaits
    · exact absurd hnone hwoken
    · exact hlo
  have hrange := hinv.range p hqueued
  have htail : s.lock.tail ≠ none := by
    intro ht
    have := hinv.tail_none ht
    omega
  intro hsafe
  rcases hsafe.served htail with ⟨q, hq⟩
  have hnode : ∀ q, q ≠ p → (next s (.dropPending p)).lock.node q = s.lock.node q :=
    fun q hqp => Function.update_of_ne hqp _ _
  have hqp : q ≠ p := by
    intro he
    have hfree : ((next s (.dropPending p)).lock.node p).phase = .free := by
      change ((s.lock.modify p fun n => { n with phase := .free }).node p).phase = _
      rw [modify_node, if_pos rfl]
    rw [he] at hq
    rcases hq with hq | ⟨hq, -⟩
    · rw [HasGuard, hfree] at hq
      cases hq
    · rw [hfree] at hq
      cases hq
  -- Whoever else had the lock would have the same ticket.
  apply hqp
  rcases hq with hq | ⟨hq, hw⟩
  · rw [HasGuard, hnode q hqp] at hq
    exact hinv.inj q p (queued_of_guard hq) hqueued ((hinv.head q hq).trans hlo.symm)
  · rw [hnode q hqp] at hq hw
    have hqw : Waits s.lock q := by
      rw [Waits, hq]
      rfl
    obtain ⟨a, -, ⟨hnone, -, -⟩ | ⟨-, -, hqlo⟩⟩ := hinv.waits q hqw
    · exact absurd hnone hw
    · exact hinv.inj q p (queued_of_waits hqw) hqueued (hqlo.trans hlo.symm)

/-- What the holder of a guard does when it drops it and somebody is behind. -/
def handOver (a p : A) (w : Waiter) : List (Action A) :=
  [.step (.unlock a), .step (.follow a), .step (.take a p), .step (.wake a p w)]

/-- To drop a future from the queue leaves its node where the predecessor finds it:
    it hands the lock over as if the future was still there. -/
theorem queued_drop (h : Inv s) {p a : A} (hg : guard s (.dropPending p))
    (hwoken : (s.lock.node p).wokenBy = none) (hprev : (s.lock.node p).prev = some a)
    (ha : (s.lock.node a).phase = .locked) :
    ∃ w, (system).Legal (next s (.dropPending p)) (handOver a p w) ∧
      ¬ CancelSafe ((system).run (next s (.dropPending p)) (handOver a p w)) := by
  rcases h.tickets with ⟨τ, lo, hi, hinv⟩
  have hph : (s.lock.node p).phase = .waiting := hg.1
  have hwaits : Waits s.lock p := by
    rw [Waits, hph]
    rfl
  have hrange := hinv.range p (queued_of_waits hwaits)
  -- The call before it has the ticket before, and is linked to it.
  have hbefore : τ a + 1 = τ p := by
    obtain ⟨b, hb, ⟨-, -, hτ⟩ | ⟨-, hw, -⟩⟩ := hinv.waits p hwaits
    · have hab : b = a := Option.some.inj (hb.symm.trans hprev)
      rwa [hab] at hτ
    · rw [hw] at hwoken
      cases hwoken
  have hap : a ≠ p := by
    intro he
    rw [he] at hbefore
    omega
  have htail : s.lock.tail ≠ some a := by
    intro ht
    have := (hinv.tail_some a ht).2
    omega
  have hnext : (s.lock.node a).next = some p := h.linked p a hph hwoken hprev
  -- The waker is in the slot, as only the predecessor takes it out.
  have hslot : (s.lock.node p).wait ≠ none := by
    rcases hinv.slot p (.inr hph) hwoken with hs | ⟨b, w, hb⟩
    · exact hs
    · have hqb : Queued s.lock b := by
        intro hfree
        rw [hfree] at hb
        cases hb
      have hqa : Queued s.lock a := by
        intro hfree
        rw [hfree] at ha
        cases ha
      have hlink := hinv.link b p hqb (hinv.waking b p w hb)
      have hba := hinv.inj b a hqb hqa (by omega)
      rw [hba, ha] at hb
      cases hb
  rcases Option.ne_none_iff_exists'.mp hslot with ⟨w, hw⟩
  -- The lock after the drop, and after each of the releaser's steps.
  obtain ⟨l, hl⟩ : ∃ l, l = (next s (.dropPending p)).lock := ⟨_, rfl⟩
  have hla : l.node a = s.lock.node a := by
    rw [hl]
    exact Function.update_of_ne hap _ _
  have hlp : (l.node p).wait = some w := by
    rw [hl]
    change ((s.lock.modify p fun n => { n with phase := .free }).node p).wait = some w
    rw [modify_node, if_pos rfl]
    exact hw
  have hunlock : DualMutex.next l (.unlock a) =
      l.modify a fun n => { n with phase := .following } := by
    simp only [DualMutex.next]
    exact if_neg (by rw [hl]; exact htail)
  obtain ⟨l', hl'⟩ : ∃ l', l' = DualMutex.next l (.unlock a) := ⟨_, rfl⟩
  have hla' : (l'.node a).phase = .following ∧ (l'.node a).next = some p := by
    rw [hl', hunlock, modify_node, if_pos rfl, hla]
    exact ⟨rfl, hnext⟩
  have hlp' : (l'.node p).wait = some w := by
    rw [hl', hunlock, modify_node, if_neg hap.symm]
    exact hlp
  have hfollow : DualMutex.next l' (.follow a) =
      l'.modify a fun n => { n with phase := .notifying p } := by
    simp only [DualMutex.next, hla'.2]
  obtain ⟨l'', hl''⟩ : ∃ l'', l'' = DualMutex.next l' (.follow a) := ⟨_, rfl⟩
  have hla'' : (l''.node a).phase = .notifying p := by
    rw [hl'', hfollow, modify_node, if_pos rfl]
  have hlp'' : (l''.node p).wait = some w := by
    rw [hl'', hfollow, modify_node, if_neg hap.symm]
    exact hlp'
  have hwaking : ((DualMutex.next l'' (.take a p)).node a).phase = .waking p w := by
    simp only [DualMutex.next, hlp'', modify_node, if_true]
  rw [hl'', hl', hl] at hwaking hla''
  rw [hl', hl] at hla'
  rw [hl] at hla
  -- The releaser finds the dropped node, and hands the lock to it.
  refine ⟨w, ⟨?_, hla'.1, hla'', hwaking, trivial⟩, fun hsafe => ?_⟩
  · change ((next s (.dropPending p)).lock.node a).phase = .locked
    rw [hla]
    exact ha
  · have hhanded := hsafe.handed
    change (if Function.update s.dropped p true p = true then p :: s.handed else s.handed) = []
      at hhanded
    rw [Function.update_self, if_pos rfl] at hhanded
    cases hhanded

end

/-- An unlocked mutex, none of whose futures has been dropped. -/
def start : State (Fin 3) where
  lock :=
    { tail := none
      node := fun _ =>
        { waiter := .ult, phase := .free, prev := none, next := none, wait := none,
          wokenBy := none } }
  dropped _ := false
  handed := []

/-- A thread has the lock; a future is dropped before its first poll, and another one
    gets the lock. -/
def handedOn : List (Action (Fin 3)) :=
  [.step (.startLock 0 .ult), .dropNew, .step (.startLock 1 .async), .step (.publish 1),
    .step (.link 1), .step (.unlock 0), .step (.follow 0), .step (.take 0 1),
    .step (.wake 0 1 .async), .step (.poll 1)]

theorem cancelSafe_handedOn : (system).Throughout CancelSafe start handedOn :=
  cancelSafe_of_keeps start handedOn ⟨⟨rfl, fun _ => rfl⟩, fun _ => rfl, rfl⟩ (by decide +kernel)
    (by decide +kernel)

/-- A future is dropped while it is queued, between a thread that has the lock and
    another that waits for it. -/
def droppedQueued : List (Action (Fin 3)) :=
  [.step (.startLock 0 .ult), .step (.startLock 1 .async), .step (.publish 1), .step (.link 1),
    .step (.startLock 2 .ult), .step (.publish 2), .step (.link 2), .dropPending 1,
    .step (.unlock 0), .step (.follow 0), .step (.take 0 1), .step (.wake 0 1 .async)]

/-- A future is dropped after it was woken. -/
def droppedWoken : List (Action (Fin 3)) :=
  [.step (.startLock 0 .ult), .step (.startLock 1 .async), .step (.publish 1), .step (.link 1),
    .step (.unlock 0), .step (.follow 0), .step (.take 0 1), .step (.wake 0 1 .async),
    .dropPending 1]

/-- Both times `tail` is left as it is with nobody to unlock, and the waiting thread
    is never woken. -/
theorem dropped_strands :
    (system).Legal start droppedQueued ∧
      ((system).run start droppedQueued).handed = [1] ∧
      ((system).run start droppedQueued).lock.tail = some 2 ∧
      (∀ p, (((system).run start droppedQueued).lock.node p).phase.guarded = false) ∧
      (((system).run start droppedQueued).lock.node 2).wokenBy = none ∧
      ¬ CancelSafe ((system).run start droppedQueued) ∧
      (system).Legal start droppedWoken ∧
      ((system).run start droppedWoken).lock.tail = some 1 ∧
      (∀ p, (((system).run start droppedWoken).lock.node p).phase = .free) ∧
      ¬ CancelSafe ((system).run start droppedWoken) := by
  -- No node has the guard, and none is on its way to it.
  have hfree : ∀ p, (((system).run start droppedWoken).lock.node p).phase = .free := by
    decide +kernel
  refine ⟨by decide +kernel, by decide +kernel, by decide +kernel, by decide +kernel,
    by decide +kernel, fun h => ?_, by decide +kernel, by decide +kernel, hfree, fun h => ?_⟩
  · exact absurd h.handed (by decide +kernel)
  · rcases h.served (by decide +kernel) with ⟨p, hp | ⟨hp, -⟩⟩
    · rw [HasGuard, hfree p] at hp
      cases hp
    · rw [hfree p] at hp
      cases hp

end Cancel

end DualMutex

end Cmpth

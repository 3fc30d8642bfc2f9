import Cmpth.Core.Update
import Cmpth.Sync.DualMutex

/-!
# Mutual Exclusion of the Dual Mutex

The chain of nodes is a ticket queue. Each swap of `tail` draws the next
ticket, `lo` is the ticket being served and `hi` the next one to draw, and
every invariant of the lock is a statement about tickets: a guard holds `lo`,
a call that waits holds the ticket after its predecessor's, and a link joins
neighbours. The tickets are not part of the model. `Inv` asks only that some
numbering of the queued nodes exists.

The numbering survives every step except one: a poll of a pending lock future
whose node nobody woke. `StacklessResumable::wait_with` promises to complete
once notified but answers its second poll with `Ready`, so that poll returns
a guard while the predecessor still owns the lock. `exclusive_iff` says that
these polls are the only way to lose exclusion.

## Main definitions

* `Queued`: The nodes a call owns.
* `Inv`: The ticket invariant.
* `Node.Like`: What a step leaves of a node whose call goes on in its role.

## Theorems

* `Inv.lo_le_hi`, `queued_of_guard`, `queued_of_waits`: What the invariant says of a node.
* `Inv.exclusive`: Under it the lock is exclusive.
* `inv_init`, `inv_empty`, `inv_startLock`, `inv_publish`, `inv_link`, `inv_locked`, `inv_unlock`,
  `inv_follow`, `inv_take`, `inv_wake`, `inv_next`: Each action keeps the invariant.
* `Node.Like.refl`: A node that nothing happens to.
* `Inv.ofLike`, `Inv.goOn`, `Inv.setNext`, `Inv.takeSlot`: Steps at which every call keeps its
  ticket.
* `modify_node`, `modify_tail`, `modify_comm`: The nodes after one has changed.
* `not_exclusive_of_poll`: A poll before the wake loses exclusion at once.
* `exclusive_iff`: A run keeps exclusion exactly when it polls only woken futures.
* `exclusive_iff_handOff`: A lock that is handed on.
* `early_poll_shares_lock`: Two guards at once, from five steps.
-/

namespace Cmpth

namespace DualMutex

variable {A : Type*}

/-- A call owns the node at `p`: it has swapped it into `tail` and its guard's
    drop has not come to its end. -/
def Queued (s : State A) (p : A) : Prop :=
  (s.node p).phase ≠ .free

/-- The ticket invariant, for a numbering `τ` of the nodes with ticket `lo`
    being served and `hi` the next to draw. -/
structure Inv (s : State A) (τ : A → Nat) (lo hi : Nat) : Prop where
  tail_none : s.tail = none → lo = hi
  tail_some : ∀ p, s.tail = some p → Queued s p ∧ τ p + 1 = hi
  range : ∀ p, Queued s p → lo ≤ τ p ∧ τ p < hi
  inj : ∀ p q, Queued s p → Queued s q → τ p = τ q → p = q
  head : ∀ p, HasGuard s p → τ p = lo
  entitled : ∀ p, HasGuard s p → Entitled s p
  /-- A predecessor stays queued until it has woken the call after it. -/
  waits : ∀ p, Waits s p → ∃ a, (s.node p).prev = some a ∧
    (((s.node p).wokenBy = none ∧ Queued s a ∧ τ a + 1 = τ p) ∨
      ((s.node p).phase = .waiting ∧ (s.node p).wokenBy = some a ∧ τ p = lo))
  link : ∀ a b, Queued s a → (s.node a).next = some b →
    Queued s b ∧ τ b = τ a + 1 ∧ (s.node b).phase = .waiting ∧ (s.node b).wokenBy = none
  notifying : ∀ p n, (s.node p).phase = .notifying n → (s.node p).next = some n
  waking : ∀ p n w, (s.node p).phase = .waking n w → (s.node p).next = some n
  /-- A published waiter stays in its slot until somebody is about to wake it. -/
  slot : ∀ p, (s.node p).phase = .published ∨ (s.node p).phase = .waiting →
    (s.node p).wokenBy = none → (s.node p).wait ≠ none ∨ ∃ a w, (s.node a).phase = .waking p w

variable {s : State A} {τ : A → Nat} {lo hi : Nat}

theorem Inv.lo_le_hi (h : Inv s τ lo hi) : lo ≤ hi := by
  cases ht : s.tail with
  | none =>
      have := h.tail_none ht
      omega
  | some a =>
      have hlast := h.tail_some a ht
      have := h.range a hlast.1
      omega

/-- The tickets say what exclusion asks for: guards hold the ticket being
    served, and no two nodes hold one ticket. -/
theorem Inv.exclusive (h : Inv s τ lo hi) : Exclusive s := by
  refine ⟨fun p q hp hq => ?_, h.entitled⟩
  have queued : ∀ r, HasGuard s r → Queued s r := by
    intro r hr hfree
    simp only [HasGuard, hfree, Phase.guarded, Bool.false_eq_true] at hr
  refine h.inj p q (queued p hp) (queued q hq) ?_
  rw [h.head p hp, h.head q hq]

theorem queued_of_guard {p : A} (h : HasGuard s p) : Queued s p := by
  intro hfree
  rw [HasGuard, hfree] at h
  cases h

theorem queued_of_waits {p : A} (h : Waits s p) : Queued s p := by
  intro hfree
  rw [Waits, hfree] at h
  cases h

/-- Nobody is queued, so there is nothing to number. -/
theorem inv_empty (htail : s.tail = none) (hfree : ∀ p, (s.node p).phase = .free) (n : Nat) :
    Inv s τ n n where
  tail_none _ := rfl
  tail_some _ hp := by
    rw [htail] at hp
    cases hp
  range p hp := absurd (hfree p) hp
  inj p _ hp _ _ := absurd (hfree p) hp
  head p hp := absurd (hfree p) (queued_of_guard hp)
  entitled p hp := absurd (hfree p) (queued_of_guard hp)
  waits p hp := absurd (hfree p) (queued_of_waits hp)
  link a _ ha _ := absurd (hfree a) ha
  notifying p _ hp := nomatch (hfree p).symm.trans hp
  waking p _ _ hp := nomatch (hfree p).symm.trans hp
  slot p hp := hp.elim (fun hp => nomatch (hfree p).symm.trans hp)
    fun hp => nomatch (hfree p).symm.trans hp

theorem inv_init (h : init s) : Inv s τ 0 0 :=
  inv_empty h.1 h.2 0

/-- The call at a node goes on in its role: it keeps the node, and its guard or its
    place behind its predecessor. -/
structure Node.Like (m n : Node A) : Prop where
  free : m.phase = .free ↔ n.phase = .free
  guarded : m.phase.guarded = n.phase.guarded
  waits : m.phase.waits = n.phase.waits
  waiting : n.phase = .waiting → m.phase = .waiting
  prev : m.prev = n.prev
  wokenBy : m.wokenBy = n.wokenBy

theorem Node.Like.refl (n : Node A) : n.Like n where
  free := Iff.rfl
  guarded := rfl
  waits := rfl
  waiting := id
  prev := rfl
  wokenBy := rfl

/-- Every call goes on in its role. What is left to see to are the links, who follows
    them and the slots. -/
theorem Inv.ofLike {s' : State A} (h : Inv s τ lo hi) (htail : s'.tail = s.tail)
    (hlike : ∀ q, (s'.node q).Like (s.node q))
    (hlink : ∀ a b, Queued s a → (s'.node a).next = some b →
      Queued s b ∧ τ b = τ a + 1 ∧ (s.node b).phase = .waiting ∧ (s.node b).wokenBy = none)
    (hnotifying : ∀ p n, (s'.node p).phase = .notifying n → (s'.node p).next = some n)
    (hwaking : ∀ p n w, (s'.node p).phase = .waking n w → (s'.node p).next = some n)
    (hslot : ∀ p, (s'.node p).phase = .published ∨ (s'.node p).phase = .waiting →
      (s.node p).wokenBy = none →
        (s'.node p).wait ≠ none ∨ ∃ a w, (s'.node a).phase = .waking p w) :
    Inv s' τ lo hi := by
  have hqueued : ∀ q, Queued s' q ↔ Queued s q := fun q => (hlike q).free.not
  have hguard : ∀ q, HasGuard s' q → HasGuard s q := fun q hq => (hlike q).guarded.symm.trans hq
  -- Tickets are held by the same calls, so the fields about them carry over.
  constructor
  case tail_none => exact fun ht => h.tail_none (htail ▸ ht)
  case tail_some =>
    intro q hq
    have hlast := h.tail_some q (htail ▸ hq)
    exact ⟨(hqueued q).mpr hlast.1, hlast.2⟩
  case range => exact fun q hq => h.range q ((hqueued q).mp hq)
  case inj => exact fun q r hq hr => h.inj q r ((hqueued q).mp hq) ((hqueued r).mp hr)
  case head => exact fun q hq => h.head q (hguard q hq)
  case entitled =>
    intro q hq
    have hent := h.entitled q (hguard q hq)
    rw [Entitled] at hent ⊢
    rw [(hlike q).prev, (hlike q).wokenBy]
    exact hent
  case waits =>
    intro q hq
    obtain ⟨a, hprev, hwait⟩ := h.waits q ((hlike q).waits.symm.trans hq)
    refine ⟨a, (hlike q).prev.trans hprev, ?_⟩
    rw [(hlike q).wokenBy, hqueued]
    exact hwait.imp_right fun hw => ⟨(hlike q).waiting hw.1, hw.2⟩
  case link =>
    intro a b ha hab
    obtain ⟨hb, hτ, hph, hwoken⟩ := hlink a b ((hqueued a).mp ha) hab
    exact ⟨(hqueued b).mpr hb, hτ, (hlike b).waiting hph, (hlike b).wokenBy.trans hwoken⟩
  case notifying => exact hnotifying
  case waking => exact hwaking
  case slot => exact fun q hq hwoken => hslot q hq ((hlike q).wokenBy.symm.trans hwoken)

variable [DecidableEq A]

@[simp] theorem modify_tail (s : State A) (p : A) (f : Node A → Node A) :
    (s.modify p f).tail = s.tail :=
  rfl

@[simp] theorem modify_node (s : State A) (p q : A) (f : Node A → Node A) :
    (s.modify p f).node q = if q = p then f (s.node q) else s.node q := by
  by_cases h : q = p
  · subst h
    simp only [State.modify, Function.update_self, if_true]
  · simp only [State.modify, Function.update_of_ne h, if_neg h]

/-- One call goes on, with its link and on its own slot only. -/
theorem Inv.goOn (h : Inv s τ lo hi) {p : A} {m : Node A} (hlike : m.Like (s.node p))
    (hnext : m.next = (s.node p).next)
    (hnotifying : ∀ n, m.phase = .notifying n → (s.node p).next = some n)
    (hwaking : ∀ n w, m.phase = .waking n w → (s.node p).next = some n)
    (hwas : ∀ n w, (s.node p).phase ≠ .waking n w)
    (hslot : m.phase = .published ∨ m.phase = .waiting → m.wait ≠ none) :
    Inv { s with node := Function.update s.node p m } τ lo hi := by
  refine h.ofLike rfl ?_ ?_ ?_ ?_ ?_
  · exact forall_update (P := fun q n => Node.Like n (s.node q)) (fun q => .refl (s.node q)) hlike
  · exact forall_update (P := fun a n => ∀ b, Queued s a → Node.next n = some b →
      Queued s b ∧ τ b = τ a + 1 ∧ (s.node b).phase = .waiting ∧ (s.node b).wokenBy = none)
      h.link fun b hp hb => h.link p b hp (hnext ▸ hb)
  · exact forall_update (P := fun _ m => ∀ n, Node.phase m = .notifying n → m.next = some n)
      h.notifying fun n hn => hnext.trans (hnotifying n hn)
  · exact forall_update (P := fun _ m => ∀ n w, Node.phase m = .waking n w → m.next = some n)
      h.waking fun n w hn => hnext.trans (hwaking n w hn)
  · -- Whoever is waking another call is not the one that goes on.
    have hkept : ∀ q, (∃ a w, (s.node a).phase = .waking q w) →
        ∃ a w, (Function.update s.node p m a).phase = .waking q w := by
      rintro q ⟨a, w, ha⟩
      have hap : a ≠ p := by
        rintro rfl
        exact hwas q w ha
      exact ⟨a, w, (congrArg Node.phase (Function.update_of_ne hap ..)).trans ha⟩
    refine forall_update (P := fun q n => Node.phase n = .published ∨ n.phase = .waiting →
      (s.node q).wokenBy = none → n.wait ≠ none ∨
        ∃ a w, (Function.update s.node p m a).phase = .waking q w) ?_ ?_
    · exact fun q hq hwoken => (h.slot q hq hwoken).imp_right (hkept q)
    · exact fun hq _ => .inl (hslot hq)

/-- A queued call gets the link to the one behind it. -/
theorem Inv.setNext (h : Inv s τ lo hi) {a p : A} (ha : Queued s a)
    (hp : Queued s p ∧ τ p = τ a + 1 ∧ (s.node p).phase = .waiting ∧
      (s.node p).wokenBy = none) :
    Inv (s.modify a fun n => { n with next := some p }) τ lo hi := by
  -- Whom the call was to wake, if it was past reading its link, is the same.
  have hsame : ∀ n, (s.node a).next = some n → n = p := by
    intro n hn
    obtain ⟨hqn, hτ, -⟩ := h.link a n ha hn
    exact h.inj n p hqn hp.1 (by omega)
  have hphase : ∀ q, ((s.modify a fun n => { n with next := some p }).node q).phase =
      (s.node q).phase :=
    forall_update (P := fun q n => Node.phase n = (s.node q).phase) (fun _ => rfl) rfl
  have hwait : ∀ q, ((s.modify a fun n => { n with next := some p }).node q).wait =
      (s.node q).wait :=
    forall_update (P := fun q n => Node.wait n = (s.node q).wait) (fun _ => rfl) rfl
  refine h.ofLike rfl ?_ ?_ ?_ ?_ ?_
  · exact forall_update (P := fun q n => Node.Like n (s.node q)) (fun q => .refl (s.node q))
      ⟨Iff.rfl, rfl, rfl, id, rfl, rfl⟩
  · refine forall_update (P := fun a n => ∀ b, Queued s a → Node.next n = some b →
      Queued s b ∧ τ b = τ a + 1 ∧ (s.node b).phase = .waiting ∧ (s.node b).wokenBy = none)
      h.link ?_
    rintro b - ⟨⟩
    exact hp
  · exact forall_update (P := fun _ m => ∀ n, Node.phase m = .notifying n → m.next = some n)
      h.notifying fun n hn => congrArg some (hsame n (h.notifying a n hn)).symm
  · exact forall_update (P := fun _ m => ∀ n w, Node.phase m = .waking n w → m.next = some n)
      h.waking fun n w hn => congrArg some (hsame n (h.waking a n w hn)).symm
  · simp only [hphase, hwait]
    exact h.slot

/-- The drop that is about to wake a call has taken it out of its slot. -/
theorem Inv.takeSlot (h : Inv s τ lo hi) {p n : A} {w : Waiter}
    (hp : (s.node p).phase = .waking n w) :
    Inv (s.modify n fun m => { m with wait := none }) τ lo hi := by
  -- Only the slot of the call changes.
  have hphase : ∀ q, ((s.modify n fun m => { m with wait := none }).node q).phase =
      (s.node q).phase :=
    forall_update (P := fun q n => Node.phase n = (s.node q).phase) (fun _ => rfl) rfl
  have hnext : ∀ q, ((s.modify n fun m => { m with wait := none }).node q).next =
      (s.node q).next :=
    forall_update (P := fun q n => Node.next n = (s.node q).next) (fun _ => rfl) rfl
  refine h.ofLike rfl ?_ ?_ ?_ ?_ ?_
  · exact forall_update (P := fun q n => Node.Like n (s.node q)) (fun q => .refl (s.node q))
      ⟨Iff.rfl, rfl, rfl, id, rfl, rfl⟩
  · simp only [hnext]
    exact h.link
  · simp only [hphase, hnext]
    exact h.notifying
  · simp only [hphase, hnext]
    exact h.waking
  · simp only [hphase]
    refine forall_update (P := fun q m => (s.node q).phase = .published ∨
      (s.node q).phase = .waiting → (s.node q).wokenBy = none → Node.wait m ≠ none ∨
        ∃ a w, (s.node a).phase = .waking q w) h.slot ?_
    exact fun _ _ => .inr ⟨p, w, hp⟩

/-- The swap draws ticket `hi`, and what it returns is the holder of the one
    before. -/
theorem inv_startLock (h : Inv s τ lo hi) (p : A) (w : Waiter) (hg : guard s (.startLock p w)) :
    Inv (next s (.startLock p w)) (Function.update τ p hi) lo (hi + 1) := by
  have hfree : ∀ q, Queued s q → q ≠ p := by
    rintro q hq rfl
    exact hq hg
  have hle := h.lo_le_hi
  have hself : (next s (.startLock p w)).node p = startNode w s.tail := Function.update_self ..
  have hother : ∀ q, q ≠ p → (next s (.startLock p w)).node q = s.node q := fun q hq =>
    Function.update_of_ne hq ..
  -- The node that is new gets the ticket `hi`, and the others keep theirs.
  have hmine : Function.update τ p hi p = hi := Function.update_self ..
  have hold : ∀ q, q ≠ p → Function.update τ p hi q = τ q := fun q hq =>
    Function.update_of_ne hq ..
  have hqueued : ∀ q, q ≠ p → Queued (next s (.startLock p w)) q → Queued s q := by
    intro q hqp hq
    rw [Queued, hother q hqp] at hq
    exact hq
  have hself_queued : Queued (next s (.startLock p w)) p := by
    rw [Queued, hself, startNode]
    split_ifs <;> nofun
  constructor
  case tail_none => nofun
  case tail_some =>
    rintro q ⟨⟩
    exact ⟨hself_queued, congrArg (· + 1) hmine⟩
  case range =>
    intro q hq
    by_cases hqp : q = p
    · rw [hqp, hmine]
      omega
    · have hrange := h.range q (hqueued q hqp hq)
      rw [hold q hqp]
      omega
  case inj =>
    -- The new ticket is above the old ones.
    have hnew : ∀ q, q ≠ p → Queued (next s (.startLock p w)) q →
        Function.update τ p hi q ≠ Function.update τ p hi p := by
      intro q hqp hq
      have hrange := h.range q (hqueued q hqp hq)
      rw [hmine, hold q hqp]
      omega
    intro q r hq hr heq
    by_cases hqp : q = p
    · by_cases hrp : r = p
      · rw [hqp, hrp]
      · subst hqp
        exact absurd heq.symm (hnew r hrp hr)
    · by_cases hrp : r = p
      · subst hrp
        exact absurd heq (hnew q hqp hq)
      · rw [hold q hqp, hold r hrp] at heq
        exact h.inj q r (hqueued q hqp hq) (hqueued r hrp hr) heq
  -- It has a guard at once only if nobody was queued.
  case head =>
    intro q hq
    by_cases hqp : q = p
    · subst hqp
      cases ht : s.tail with
      | none => rw [hmine, h.tail_none ht]
      | some a =>
          rw [HasGuard, hself, ht] at hq
          cases hq
    · rw [HasGuard, hother q hqp] at hq
      rw [hold q hqp]
      exact h.head q hq
  case entitled =>
    intro q hq
    by_cases hqp : q = p
    · subst hqp
      cases ht : s.tail with
      | none =>
          rw [Entitled, hself, ht]
          exact .inl rfl
      | some a =>
          rw [HasGuard, hself, ht] at hq
          cases hq
    · rw [HasGuard, hother q hqp] at hq
      rw [Entitled, hother q hqp]
      exact h.entitled q hq
  -- Otherwise it waits behind the node that was the tail.
  case waits =>
    intro q hq
    by_cases hqp : q = p
    · subst hqp
      cases ht : s.tail with
      | none =>
          rw [Waits, hself, ht] at hq
          cases hq
      | some a =>
          -- What the swap returns is the last node there was.
          have hlast := h.tail_some a ht
          have hne := hfree a hlast.1
          rw [hself, ht]
          refine ⟨a, rfl, .inl ⟨rfl, ?_⟩⟩
          rw [Queued, hother a hne, hmine, hold a hne]
          exact hlast
    · rw [Waits, hother q hqp] at hq
      obtain ⟨a, hprev, hwait⟩ := h.waits q hq
      rw [hother q hqp, hold q hqp]
      refine ⟨a, hprev, hwait.imp_left fun ⟨hwoken, ha, hτ⟩ => ?_⟩
      have hne := hfree a ha
      rw [Queued, hother a hne, hold a hne]
      exact ⟨hwoken, ha, hτ⟩
  case link =>
    intro a b ha hab
    by_cases hap : a = p
    · rw [hap, hself] at hab
      cases hab
    · rw [hother a hap] at hab
      have hlink := h.link a b (hqueued a hap ha) hab
      have hbp := hfree b hlink.1
      rw [Queued, hother b hbp, hold b hbp, hold a hap]
      exact hlink
  case notifying =>
    refine forall_update (P := fun _ m => ∀ n, Node.phase m = .notifying n → m.next = some n)
      h.notifying fun n hn => ?_
    rw [startNode] at hn
    split_ifs at hn
  case waking =>
    refine forall_update (P := fun _ m => ∀ n w, Node.phase m = .waking n w → m.next = some n)
      h.waking fun n w' hn => ?_
    rw [startNode] at hn
    split_ifs at hn
  case slot =>
    intro q hq hwoken
    by_cases hqp : q = p
    · rw [hqp, hself, startNode] at hq
      split_ifs at hq <;> rcases hq with hq | hq <;> cases hq
    · rw [hother q hqp] at hq hwoken ⊢
      refine (h.slot q hq hwoken).imp_right fun ⟨a, w', ha⟩ => ⟨a, w', ?_⟩
      rw [hother a (hfree a (by rw [Queued, ha]; nofun))]
      exact ha

theorem inv_publish (h : Inv s τ lo hi) (p : A) (hg : guard s (.publish p)) :
    Inv (next s (.publish p)) τ lo hi := by
  have hph : (s.node p).phase = .enqueued := hg
  exact h.goOn (m := { s.node p with wait := some (s.node p).waiter, phase := .published })
    ⟨iff_of_false nofun (by rw [hph]; nofun), by rw [hph]; rfl, by rw [hph]; rfl,
      by rw [hph]; nofun, rfl, rfl⟩ rfl nofun nofun (by rw [hph]; nofun) fun _ => nofun

theorem modify_comm (s : State A) {p q : A} (hne : p ≠ q) (f g : Node A → Node A) :
    (s.modify p f).modify q g = (s.modify q g).modify p f := by
  unfold State.modify
  simp only [Function.update_of_ne hne, Function.update_of_ne hne.symm,
    Function.update_comm hne]

/-- The link a call stores is in its predecessor, which is still queued. -/
theorem inv_link (h : Inv s τ lo hi) (p : A) (hg : guard s (.link p)) :
    Inv (next s (.link p)) τ lo hi := by
  have hph : (s.node p).phase = .published := hg
  obtain ⟨a, ha, ⟨hwoken, hqa, hτ⟩ | ⟨hwaiting, -⟩⟩ := h.waits p (by rw [Waits, hph]; rfl)
  swap
  · cases hph.symm.trans hwaiting
  have hap : a ≠ p := by
    rintro rfl
    omega
  have hwait : (s.node p).wait ≠ none := by
    refine (h.slot p (.inl hph) hwoken).resolve_right ?_
    rintro ⟨b, w, hb⟩
    -- A link to the call is stored only now.
    have hlink := h.link b p (by rw [Queued, hb]; nofun) (h.waking b p w hb)
    cases hph.symm.trans hlink.2.2.1
  have hset : Inv (s.modify p fun n => { n with phase := .waiting }) τ lo hi := by
    exact h.goOn (m := { s.node p with phase := .waiting })
      ⟨iff_of_false nofun (by rw [hph]; nofun), by rw [hph]; rfl, by rw [hph]; rfl,
        fun _ => rfl, rfl, rfl⟩ rfl nofun nofun (by rw [hph]; nofun) fun _ => hwait
  have hnext : next s (.link p) =
      (s.modify p fun n => { n with phase := .waiting }).modify a
        fun n => { n with next := some p } := by
    rw [← modify_comm s hap]
    simp only [next, ha]
  rw [hnext]
  have hpa : (s.modify p fun n => { n with phase := .waiting }).node p =
      { s.node p with phase := .waiting } := Function.update_self ..
  have hqp : Queued (s.modify p fun n => { n with phase := .waiting }) p := by
    rw [Queued, hpa]
    nofun
  have hqueued : Queued (s.modify p fun n => { n with phase := .waiting }) a := by
    rw [Queued, modify_node, if_neg hap]
    exact hqa
  have hnew : Queued (s.modify p fun n => { n with phase := .waiting }) p ∧ τ p = τ a + 1 ∧
      ((s.modify p fun n => { n with phase := .waiting }).node p).phase = .waiting ∧
      ((s.modify p fun n => { n with phase := .waiting }).node p).wokenBy = none := by
    rw [hpa]
    exact ⟨hqp, hτ.symm, rfl, hwoken⟩
  exact hset.setNext hqueued hnew

/-- A call whose node was woken may have its guard: its ticket is the one
    being served. -/
theorem inv_locked (h : Inv s τ lo hi) (p : A) (hph : (s.node p).phase = .waiting)
    (hwoken : (s.node p).wokenBy ≠ none) :
    Inv (s.modify p fun n => { n with phase := .locked }) τ lo hi := by
  obtain ⟨a, ha, ⟨hno, -⟩ | ⟨-, hby, hτ⟩⟩ := h.waits p (by rw [Waits, hph]; rfl)
  · exact absurd hno hwoken
  have hself : (s.modify p fun n => { n with phase := .locked }).node p =
      { s.node p with phase := .locked } := Function.update_self ..
  have hother : ∀ q, q ≠ p → (s.modify p fun n => { n with phase := .locked }).node q = s.node q :=
    fun q hq => Function.update_of_ne hq ..
  -- It was waiting and has the guard now: its node is in use before and after.
  have hfree : ∀ q, ((s.modify p fun n => { n with phase := .locked }).node q).phase = .free ↔
      (s.node q).phase = .free := by
    refine forall_update (P := fun q n => Node.phase n = .free ↔ (s.node q).phase = .free)
      (fun _ => Iff.rfl) (iff_of_false nofun ?_)
    rw [hph]
    nofun
  have hqueued : ∀ q, Queued (s.modify p fun n => { n with phase := .locked }) q ↔ Queued s q :=
    fun q => (hfree q).not
  constructor
  case tail_none => exact h.tail_none
  case tail_some => exact fun q hq => ⟨(hqueued q).mpr (h.tail_some q hq).1, (h.tail_some q hq).2⟩
  case range => exact fun q hq => h.range q ((hqueued q).mp hq)
  case inj => exact fun q r hq hr => h.inj q r ((hqueued q).mp hq) ((hqueued r).mp hr)
  -- Its ticket is the lowest one, by the wake that it has got.
  case head =>
    exact forall_update (P := fun q n => (Node.phase n).guarded = true → τ q = lo) h.head
      fun _ => hτ
  case entitled =>
    refine forall_update (P := fun _ n => (Node.phase n).guarded = true →
      n.prev = none ∨ (n.wokenBy ≠ none ∧ n.wokenBy = n.prev)) h.entitled fun _ => ?_
    exact .inr ⟨hwoken, hby.trans ha.symm⟩
  case waits =>
    intro q hq
    have hqp : q ≠ p := by
      rintro rfl
      rw [Waits, hself] at hq
      cases hq
    rw [Waits, hother q hqp] at hq
    simp only [hother q hqp, hqueued]
    exact h.waits q hq
  case link =>
    intro b c hb hbc
    have hnext : (s.node b).next = some c := by
      by_cases hbp : b = p
      · rw [hbp, hself] at hbc
        rw [hbp]
        exact hbc
      · rwa [hother b hbp] at hbc
    have hlink := h.link b c ((hqueued b).mp hb) hnext
    -- Nobody links to the call any more that was woken.
    have hcp : c ≠ p := by
      rintro rfl
      exact hwoken hlink.2.2.2
    rw [hqueued, hother c hcp]
    exact hlink
  case notifying =>
    exact forall_update (P := fun _ m => ∀ n, Node.phase m = .notifying n → m.next = some n)
      h.notifying nofun
  case waking =>
    exact forall_update (P := fun _ m => ∀ n w, Node.phase m = .waking n w → m.next = some n)
      h.waking nofun
  case slot =>
    intro q hq hno
    have hqp : q ≠ p := by
      rintro rfl
      rw [hself] at hq
      rcases hq with hq | hq <;> cases hq
    rw [hother q hqp] at hq hno ⊢
    refine (h.slot q hq hno).imp_right fun ⟨b, w, hb⟩ => ⟨b, w, ?_⟩
    have hbp : b ≠ p := by
      rintro rfl
      cases hph.symm.trans hb
    rw [hother b hbp]
    exact hb

theorem inv_unlock (h : Inv s τ lo hi) (p : A) (hg : guard s (.unlock p)) :
    ∃ lo', Inv (next s (.unlock p)) τ lo' hi := by
  have hph : (s.node p).phase = .locked := hg
  have hqp : Queued s p := by
    rw [Queued, hph]
    nofun
  have hhead := h.head p (by rw [HasGuard, hph]; rfl)
  simp only [next]
  split
  case isTrue ht =>
    -- The last ticket is the one being served, so the queue is empty now.
    have hlast := h.tail_some p ht
    refine ⟨hi, inv_empty rfl ?_ hi⟩
    refine forall_update_of_ne (P := fun _ n => Node.phase n = .free) (fun q hq => ?_) rfl
    by_contra hqueued
    have hrange := h.range q hqueued
    exact hq (h.inj q p hqueued hqp (by omega))
  case isFalse =>
    exact ⟨lo, h.goOn (m := { s.node p with phase := .following })
      ⟨iff_of_false nofun (by rw [hph]; nofun), by rw [hph]; rfl, by rw [hph]; rfl,
        by rw [hph]; nofun, rfl, rfl⟩ rfl nofun nofun (by rw [hph]; nofun) nofun⟩

theorem inv_follow (h : Inv s τ lo hi) (p : A) (hg : guard s (.follow p)) :
    Inv (next s (.follow p)) τ lo hi := by
  have hph : (s.node p).phase = .following := hg
  simp only [next]
  split
  case h_1 n hn =>
    have hnotifying : ∀ n', (Phase.notifying n) = .notifying n' → (s.node p).next = some n' := by
      rintro n' ⟨⟩
      exact hn
    have hlike : Node.Like { s.node p with phase := .notifying n } (s.node p) := by
      refine ⟨iff_of_false (by rintro ⟨⟩) ?_, ?_, ?_, ?_, rfl, rfl⟩ <;> rw [hph]
      · rintro ⟨⟩
      · rfl
      · rfl
      · rintro ⟨⟩
    refine h.goOn hlike rfl hnotifying (by rintro _ _ ⟨⟩) ?_ (by rintro (⟨⟨⟩⟩ | ⟨⟨⟩⟩))
    rw [hph]
    rintro _ _ ⟨⟩
  case h_2 => exact h

/-- `notify` never finds the slot empty: the waiter was published before the
    link, and only this drop takes it out. -/
theorem inv_take (h : Inv s τ lo hi) (p n : A) (hg : guard s (.take p n)) :
    Inv (next s (.take p n)) τ lo hi := by
  have hph : (s.node p).phase = .notifying n := hg
  have hp : Queued s p := by
    rw [Queued, hph]
    nofun
  -- The drop wakes the node that is linked to its own.
  have hnext := h.notifying p n hph
  obtain ⟨-, hτ, hwaiting, hwoken⟩ := h.link p n hp hnext
  have hnp : n ≠ p := by
    rintro rfl
    omega
  simp only [next]
  split
  case h_1 w hwait =>
    have hwaking : ∀ n' w', Phase.waking n w = .waking n' w' → (s.node p).next = some n' := by
      rintro n' w' ⟨⟩
      exact hnext
    rw [modify_comm s hnp]
    refine Inv.takeSlot (p := p) (w := w) ?_
      (congrArg Node.phase (Function.update_self (f := s.node) ..))
    exact h.goOn (m := { s.node p with phase := .waking n w })
      ⟨iff_of_false nofun (by rw [hph]; nofun), by rw [hph]; rfl, by rw [hph]; rfl,
        by rw [hph]; nofun, rfl, rfl⟩ rfl nofun hwaking (by rw [hph]; nofun) nofun
  case h_2 hwait =>
    rcases h.slot n (Or.inr hwaiting) hwoken with hs | ⟨a, w, ha⟩
    · exact absurd hwait hs
    · -- Another drop waking `n` would hold the ticket before `n`'s as well.
      have hqa : Queued s a := by
        rw [Queued, ha]
        nofun
      have hlink := h.link a n hqa (h.waking a n w ha)
      have hap := h.inj a p hqa hp (by omega)
      rw [hap, hph] at ha
      cases ha

/-- The wake hands the ticket being served to the next node. -/
theorem inv_wake (h : Inv s τ lo hi) (p n : A) (w : Waiter) (hg : guard s (.wake p n w)) :
    Inv (next s (.wake p n w)) τ (lo + 1) hi := by
  have hph : (s.node p).phase = .waking n w := hg
  have hp : Queued s p := by
    rw [Queued, hph]
    nofun
  have hlo := h.head p (by rw [HasGuard, hph]; rfl)
  -- The node that is woken is the one behind, with the next ticket.
  have hnext := h.waking p n w hph
  obtain ⟨hn, hτ, hwaiting, hwoken⟩ := h.link p n hp hnext
  have hnp : n ≠ p := by
    rintro rfl
    omega
  have hprev : (s.node n).prev = some p := by
    obtain ⟨a, ha, ⟨-, hqa, hτa⟩ | ⟨-, hby, -⟩⟩ := h.waits n (by rw [Waits, hwaiting]; rfl)
    · rw [ha, h.inj a p hqa hp (by omega)]
    · cases hwoken.symm.trans hby
  have hself : (next s (.wake p n w)).node p = { s.node p with phase := .free } := by
    simp only [next, modify_node, if_pos, if_neg hnp.symm]
  have hsucc : (next s (.wake p n w)).node n = { s.node n with wokenBy := some p } := by
    simp only [next, modify_node, if_pos, if_neg hnp]
  have hother : ∀ q, q ≠ p → q ≠ n → (next s (.wake p n w)).node q = s.node q := by
    intro q hqp hqn
    simp only [next, modify_node, if_neg hqp, if_neg hqn]
  -- Apart from the node that is freed, only one `wokenBy` is new.
  have hphase : ∀ q, q ≠ p → ((next s (.wake p n w)).node q).phase = (s.node q).phase := by
    intro q hqp
    by_cases hqn : q = n
    · rw [hqn, hsucc]
    · rw [hother q hqp hqn]
  have hlinks : ∀ q, ((next s (.wake p n w)).node q).next = (s.node q).next := by
    intro q
    by_cases hqp : q = p
    · rw [hqp, hself]
    · by_cases hqn : q = n
      · rw [hqn, hsucc]
      · rw [hother q hqp hqn]
  -- What is queued afterwards was so before, with a ticket above the one that goes.
  have hqueued : ∀ q, Queued (next s (.wake p n w)) q → q ≠ p ∧ Queued s q := by
    intro q hq
    by_cases hqp : q = p
    · rw [Queued, hqp, hself] at hq
      exact absurd rfl hq
    · rw [Queued, hphase q hqp] at hq
      exact ⟨hqp, hq⟩
  have habove : ∀ q, q ≠ p → Queued s q → lo + 1 ≤ τ q := by
    intro q hqp hq
    have hrange := h.range q hq
    have hne : τ q ≠ τ p := fun heq => hqp (h.inj q p hq hp heq)
    omega
  -- The one guard there was is the one that is gone.
  have hnone : ∀ q, ¬ HasGuard (next s (.wake p n w)) q := by
    intro q hq
    obtain ⟨hqp, hqueue⟩ := hqueued q (queued_of_guard hq)
    rw [HasGuard, hphase q hqp] at hq
    have hlow := h.head q hq
    have hup := habove q hqp hqueue
    omega
  constructor
  case tail_none =>
    intro ht
    have hrange := h.range p hp
    have heq := h.tail_none ht
    omega
  case tail_some =>
    intro q hq
    have hlast := h.tail_some q hq
    have hqp : q ≠ p := by
      rintro rfl
      have hrange := h.range n hn
      omega
    refine ⟨?_, hlast.2⟩
    rw [Queued, hphase q hqp]
    exact hlast.1
  case range =>
    intro q hq
    obtain ⟨hqp, hqueue⟩ := hqueued q hq
    exact ⟨habove q hqp hqueue, (h.range q hqueue).2⟩
  case inj => exact fun q r hq hr => h.inj q r (hqueued q hq).2 (hqueued r hr).2
  case head => exact fun q hq => absurd hq (hnone q)
  case entitled => exact fun q hq => absurd hq (hnone q)
  case waits =>
    intro q hq
    obtain ⟨hqp, hqueue⟩ := hqueued q (queued_of_waits hq)
    rw [Waits, hphase q hqp] at hq
    by_cases hqn : q = n
    · subst hqn
      rw [hsucc]
      exact ⟨p, hprev, .inr ⟨hwaiting, rfl, by omega⟩⟩
    · obtain ⟨a, ha, ⟨hno, hqa, hτa⟩ | ⟨-, -, hτq⟩⟩ := h.waits q hq
      · have hap : a ≠ p := by
          rintro rfl
          exact hqn (h.inj q n hqueue hn (by omega))
        rw [hother q hqp hqn]
        refine ⟨a, ha, .inl ⟨hno, ?_, hτa⟩⟩
        rw [Queued, hphase a hap]
        exact hqa
      · have hup := habove q hqp hqueue
        omega
  case link =>
    intro a b ha hab
    obtain ⟨hap, hqa⟩ := hqueued a ha
    rw [hlinks] at hab
    obtain ⟨hb, hτb, hph', hno⟩ := h.link a b hqa hab
    have hup := habove a hap hqa
    have hbp : b ≠ p := by
      rintro rfl
      omega
    have hbn : b ≠ n := by
      rintro rfl
      exact hap (h.inj a p hqa hp (by omega))
    rw [Queued, hother b hbp hbn]
    exact ⟨hb, hτb, hph', hno⟩
  case notifying =>
    intro q m hq
    obtain ⟨hqp, -⟩ := hqueued q (by rw [Queued, hq]; nofun)
    rw [hphase q hqp] at hq
    rw [hlinks]
    exact h.notifying q m hq
  case waking =>
    intro q m w' hq
    obtain ⟨hqp, -⟩ := hqueued q (by rw [Queued, hq]; nofun)
    rw [hphase q hqp] at hq
    rw [hlinks]
    exact h.waking q m w' hq
  case slot =>
    intro q hq hno
    have hqn : q ≠ n := by
      rintro rfl
      rw [hsucc] at hno
      cases hno
    have hqp : q ≠ p := by
      rintro rfl
      rw [hself] at hq
      rcases hq with hq | hq <;> cases hq
    rw [hother q hqp hqn] at hq hno ⊢
    refine (h.slot q hq hno).imp_right fun ⟨a, w', ha⟩ => ⟨a, w', ?_⟩
    -- The drop that ends was waking `n`, and nobody else.
    have hap : a ≠ p := by
      rintro rfl
      cases hph.symm.trans ha
      exact hqn rfl
    rw [hphase a hap]
    exact ha

/-- Every step that polls only woken futures keeps some numbering. -/
theorem inv_next (a : Action A) (h : ∃ τ lo hi, Inv s τ lo hi) (hg : guard s a)
    (hc : PollsWoken s a) : ∃ τ lo hi, Inv (next s a) τ lo hi := by
  obtain ⟨τ, lo, hi, h⟩ := h
  cases a with
  | startLock p w => exact ⟨_, lo, hi + 1, inv_startLock h p w hg⟩
  | publish p => exact ⟨τ, lo, hi, inv_publish h p hg⟩
  | link p => exact ⟨τ, lo, hi, inv_link h p hg⟩
  | resume p => exact ⟨τ, lo, hi, inv_locked h p hg.1 hg.2.2⟩
  | poll p => exact ⟨τ, lo, hi, inv_locked h p hg.1 hc⟩
  | unlock p =>
      obtain ⟨lo', h'⟩ := inv_unlock h p hg
      exact ⟨τ, lo', hi, h'⟩
  | follow p => exact ⟨τ, lo, hi, inv_follow h p hg⟩
  | take p n => exact ⟨τ, lo, hi, inv_take h p n hg⟩
  | wake p n w => exact ⟨τ, lo + 1, hi, inv_wake h p n w hg⟩

/-- A poll before the wake returns a guard that nothing entitles the call
    to. -/
theorem not_exclusive_of_poll (h : Inv s τ lo hi) (a : Action A) (hg : guard s a)
    (hc : ¬ PollsWoken s a) : ¬ Exclusive (next s a) := by
  cases a with
  | poll p =>
      simp only [PollsWoken, ne_eq, not_not] at hc
      have hph : (s.node p).phase = .waiting := hg.1
      obtain ⟨b, hprev, -⟩ := h.waits p (by simp [Waits, hph, Phase.waits])
      intro hex
      have hent := hex.entitled p (by simp [next, HasGuard, Phase.guarded])
      simp [next, Entitled, hprev, hc] at hent
  | startLock _ _ | publish _ | link _ | resume _ | unlock _ | follow _ | take _ _ | wake _ _ _ =>
      exact absurd trivial hc

/-- From an unlocked mutex, any number of threads and lock futures keep at
    most one guard live, and each guard properly come by, exactly as long as
    no pending lock future is polled before its node was woken. -/
theorem exclusive_iff (s : State A) (as : List (Action A)) (hi : init s)
    (hl : system.Legal s as) :
    system.Throughout Exclusive s as ↔ system.Along PollsWoken s as := by
  refine system.throughout_iff_along (I := fun s => ∃ τ lo hi, Inv s τ lo hi) ?_ ?_ ?_ as s
    ⟨fun _ => 0, 0, 0, inv_init hi⟩ hl
  · rintro s ⟨τ, lo, hi, h⟩
    exact h.exclusive
  · exact fun s a h hg hc => inv_next a h hg hc
  · rintro s a ⟨τ, lo, hi, h⟩ hg hc
    exact not_exclusive_of_poll h a hg hc

/-- An unlocked mutex whose nodes have never been used. -/
def unlocked : State Nat :=
  { tail := none
    node := fun _ =>
      { waiter := .ult, phase := .free, prev := none, next := none, wait := none,
        wokenBy := none } }

/-- A thread takes the lock, hands it to the lock future behind it and both
    guards are dropped. -/
def handOff : List (Action Nat) :=
  [.startLock 0 .ult, .startLock 1 .async, .publish 1, .link 1, .unlock 0, .follow 0, .take 0 1,
    .wake 0 1 .async, .poll 1, .unlock 1]

theorem exclusive_iff_handOff :
    (init unlocked ∧ system.Legal unlocked handOff) ∧
      (system.Throughout Exclusive unlocked handOff ↔ system.Along PollsWoken unlocked handOff) :=
  ⟨⟨⟨rfl, fun _ => rfl⟩, by decide⟩,
    exclusive_iff unlocked handOff ⟨rfl, fun _ => rfl⟩ (by decide)⟩

/-- A thread holds the lock; a lock future enqueues behind it and is polled a
    second time before anybody woke it. -/
def earlyPoll : List (Action Nat) :=
  [.startLock 0 .ult, .startLock 1 .async, .publish 1, .link 1, .poll 1]

/-- Both then have a guard, and the future's node was never notified. -/
theorem early_poll_shares_lock :
    ∃ s : State Nat, system.Reachable s ∧ HasGuard s 0 ∧ HasGuard s 1 ∧ ¬ Entitled s 1 ∧
      ¬ Exclusive s := by
  have hrun : system.Reachable (system.run unlocked earlyPoll) :=
    system.reachable_run earlyPoll unlocked ⟨rfl, fun _ => rfl⟩ (by decide)
  have h0 : HasGuard (system.run unlocked earlyPoll) 0 := rfl
  have h1 : HasGuard (system.run unlocked earlyPoll) 1 := rfl
  refine ⟨_, hrun, h0, h1, ?_, fun hex => absurd (hex.unique 0 1 h0 h1) (by decide)⟩
  rintro (hprev | ⟨hwoken, -⟩)
  · exact absurd hprev (by decide)
  · exact hwoken rfl

end DualMutex

end Cmpth

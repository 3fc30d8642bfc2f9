import Cmpth.Sync.Exclusion

/-!
# Nobody is Stranded

What the tickets of the MCS chain say about progress.

Every ticket between the one being served and the next one to draw belongs to a
queued node: a call that waits keeps its predecessor queued, and so on down to
the one being served. While `tail` is not null there is such a node, and it
either has its guard or has been woken for it.

A releaser whose compare and exchange failed has a node behind it, which is the
next ticket's. If `next` is still null, that call is about to store the link: a
call that has stored it has stored it here, and nobody overwrites it.

## Main definitions

* `Linked`: A call that waits and was not woken is linked from its predecessor.
* `Followed`: A releaser that has to follow `next` has a node behind it.

## Theorems

* `guard_or_waits`: A queued node has its guard or waits for it.
* `Inv.exists_ticket`: Every ticket in between is held.
* `Inv.served`: A queue that is not empty has its head served.
* `Inv.reached`: A link that a releaser spins on is about to be written.
* `Inv.filled`: A releaser finds the slot filled.
* `linked_of`: A step keeps the links it does not store, as long as the calls it does not take are
  where they were.
* `linked_modify`: A change of one node that is no step of its wait.
* `linked_startLock`, `linked_link`, `followed_modify`: The actions that matter to links.
* `linked_next`, `followed_next`: Every step keeps the links.
* `followed_of`: A change of nodes that leaves `tail` and starts no following.
-/

namespace Cmpth

namespace DualMutex

variable {A : Type*} {s : State A} {τ : A → Nat} {lo hi : Nat}

/-- Whoever waits and was not woken is linked from its predecessor. -/
def Linked (s : State A) : Prop :=
  ∀ q a, (s.node q).phase = .waiting → (s.node q).wokenBy = none → (s.node q).prev = some a →
    (s.node a).next = some q

/-- A releaser that follows `next` is not the last in the queue. -/
def Followed (s : State A) : Prop :=
  ∀ p, (s.node p).phase = .following → s.tail ≠ some p

/-- A queued node has its guard or waits for it. -/
theorem guard_or_waits {p : A} (h : Queued s p) : HasGuard s p ∨ Waits s p := by
  unfold Queued at h
  unfold HasGuard Waits
  cases hp : (s.node p).phase with
  | free => exact absurd hp h
  | enqueued | published | waiting => exact .inr rfl
  | locked | following | notifying n | waking n w => exact .inl rfl

/-- Every ticket from the one being served on is held. -/
theorem Inv.exists_ticket (h : Inv s τ lo hi) {k : ℕ} (hk : lo ≤ k) :
    ∀ (d : ℕ) (q : A), Queued s q → τ q = k + d → ∃ p, Queued s p ∧ τ p = k := by
  intro d
  induction d with
  | zero => exact fun q hq hτ => ⟨q, hq, hτ⟩
  | succ d ih =>
      intro q hq hτ
      rcases guard_or_waits hq with hguard | hwaits
      · have := h.head q hguard
        omega
      · obtain ⟨a, -, ⟨-, ha, hprev⟩ | ⟨-, -, hlo⟩⟩ := h.waits q hwaits
        · exact ih a ha (by omega)
        · omega

/-- While `tail` is not null, somebody has the ticket being served: it has its
    guard, or has been woken for it. -/
theorem Inv.served (h : Inv s τ lo hi) (ht : s.tail ≠ none) :
    ∃ p, τ p = lo ∧ (HasGuard s p ∨
      (s.node p).phase = .waiting ∧ (s.node p).wokenBy ≠ none) := by
  rcases Option.ne_none_iff_exists'.mp ht with ⟨z, hz⟩
  have hlast := h.tail_some z hz
  have hrange := h.range z hlast.1
  obtain ⟨p, hp, hτ⟩ := h.exists_ticket (Nat.le_refl lo) (τ z - lo) z hlast.1 (by omega)
  refine ⟨p, hτ, ?_⟩
  rcases guard_or_waits hp with hguard | hwaits
  · exact .inl hguard
  · obtain ⟨a, -, ⟨-, ha, hprev⟩ | ⟨hph, hwoken, -⟩⟩ := h.waits p hwaits
    · -- Nobody queued has a ticket before the one being served.
      have := h.range a ha
      omega
    · exact .inr ⟨hph, by rw [hwoken]; nofun⟩

/-- The link a releaser follows is there, or the call behind it is about to store
    it. -/
theorem Inv.reached (h : Inv s τ lo hi) (hl : Linked s) (hf : Followed s) {p : A}
    (hp : (s.node p).phase = .following) :
    (s.node p).next ≠ none ∨ ∃ q, (s.node q).prev = some p ∧
      ((s.node q).phase = .enqueued ∨ (s.node q).phase = .published) := by
  have hguard : HasGuard s p := by
    rw [HasGuard, hp]
    rfl
  have hqueued := queued_of_guard hguard
  have hhead := h.head p hguard
  have hrange := h.range p hqueued
  -- The lock is taken, so the tail is a node; if it is not `p`'s own, somebody is behind it.
  cases ht : s.tail with
  | none =>
      have := h.tail_none ht
      omega
  | some z =>
      obtain ⟨hz, hlast⟩ := h.tail_some z ht
      have hzp : τ z ≠ lo := by
        intro heq
        exact hf p hp (ht.trans (congrArg some (h.inj z p hz hqueued (heq.trans hhead.symm))))
      have hzr := h.range z hz
      obtain ⟨q, hq, hτ⟩ := h.exists_ticket (Nat.le_succ lo) (τ z - (lo + 1)) z hz (by omega)
      rcases guard_or_waits hq with hg | hwaits
      · have := h.head q hg
        omega
      · obtain ⟨a, hprev, ⟨hnot, ha, hbefore⟩ | ⟨-, -, hlo⟩⟩ := h.waits q hwaits
        · have hap : a = p := h.inj a p ha hqueued (by omega)
          subst hap
          cases hph : (s.node q).phase with
          | enqueued => exact .inr ⟨q, hprev, .inl hph⟩
          | published => exact .inr ⟨q, hprev, .inr hph⟩
          | waiting =>
              left
              rw [hl q a hph hnot hprev]
              simp
          | free | locked | following | notifying n | waking n w =>
              rw [Waits, hph] at hwaits
              cases hwaits
        · omega

/-- A releaser that has followed `next` finds the slot filled. -/
theorem Inv.filled (h : Inv s τ lo hi) {p n : A} (hp : (s.node p).phase = .notifying n) :
    (s.node n).wait ≠ none := by
  have hqueued : Queued s p := by
    intro hfree
    rw [hfree] at hp
    cases hp
  obtain ⟨-, hn, hph, hwoken⟩ := h.link p n hqueued (h.notifying p n hp)
  rcases h.slot n (.inr hph) hwoken with hs | ⟨a, w, ha⟩
  · exact hs
  · -- Whoever else has taken the slot would have the same ticket.
    have hqa : Queued s a := by
      intro hfree
      rw [hfree] at ha
      cases ha
    have hlink := h.link a n hqa (h.waking a n w ha)
    have hap := h.inj a p hqa hqueued (by omega)
    rw [hap, hp] at ha
    cases ha

section

variable [DecidableEq A]

omit [DecidableEq A] in
/-- A step keeps the links it does not store, as long as the calls it does not take
    are where they were. -/
theorem linked_of {s' : State A} (hl : Linked s)
    (hnode : ∀ q, (s'.node q).phase = .waiting → (s'.node q).wokenBy = none →
      (s.node q).phase = .waiting ∧ (s.node q).wokenBy = none ∧
        (s'.node q).prev = (s.node q).prev)
    (hnext : ∀ q, (s'.node q).next = (s.node q).next) : Linked s' := by
  intro q a hph hwoken hprev
  obtain ⟨hph', hwoken', hsame⟩ := hnode q hph hwoken
  rw [hnext]
  exact hl q a hph' hwoken' (hsame ▸ hprev)

/-- A change of one node that is no step of its wait. -/
theorem linked_modify (hl : Linked s) (p : A) (f : Node A → Node A)
    (hwait : (f (s.node p)).phase = .waiting → (f (s.node p)).wokenBy = none →
      (s.node p).phase = .waiting ∧ (s.node p).wokenBy = none)
    (hprev : (f (s.node p)).prev = (s.node p).prev)
    (hnext : (f (s.node p)).next = (s.node p).next) : Linked (s.modify p f) := by
  refine linked_of hl (fun q hph hwoken => ?_) (fun q => ?_)
  · rw [modify_node] at hph hwoken ⊢
    by_cases hq : q = p
    · subst hq
      rw [if_pos rfl] at hph hwoken ⊢
      exact ⟨(hwait hph hwoken).1, (hwait hph hwoken).2, hprev⟩
    · rw [if_neg hq] at hph hwoken ⊢
      exact ⟨hph, hwoken, rfl⟩
  · rw [modify_node]
    by_cases hq : q = p
    · subst hq
      rw [if_pos rfl, hnext]
    · rw [if_neg hq]

theorem linked_startLock (h : Inv s τ lo hi) (hl : Linked s) {p : A} {w : Waiter}
    (hg : guard s (.startLock p w)) : Linked (next s (.startLock p w)) := by
  intro q a hph hwoken hprev
  change (Function.update s.node p (startNode w s.tail) q).phase = _ at hph
  change (Function.update s.node p (startNode w s.tail) q).wokenBy = _ at hwoken
  change (Function.update s.node p (startNode w s.tail) q).prev = _ at hprev
  change (Function.update s.node p (startNode w s.tail) a).next = _
  by_cases hq : q = p
  · rw [hq, Function.update_self] at hph
    change (if s.tail = none then Phase.locked else Phase.enqueued) = _ at hph
    split at hph <;> cases hph
  · rw [Function.update_of_ne hq] at hph hwoken hprev
    -- The predecessor is queued, so its node is not the fresh one.
    have ha : a ≠ p := by
      intro hap
      have hwaits : Waits s q := by
        rw [Waits, hph]
        rfl
      obtain ⟨b, hb, ⟨-, hqueued, -⟩ | ⟨-, hw, -⟩⟩ := h.waits q hwaits
      · have hba : b = a := Option.some.inj (hb.symm.trans hprev)
        exact hqueued (by rw [hba, hap]; exact hg)
      · rw [hw] at hwoken
        cases hwoken
    rw [Function.update_of_ne ha]
    exact hl q a hph hwoken hprev

theorem linked_link (h : Inv s τ lo hi) (hl : Linked s) {p : A} (hg : guard s (.link p)) :
    Linked (next s (.link p)) := by
  have hp : (s.node p).phase = .published := hg
  have hwaits : Waits s p := by
    rw [Waits, hp]
    rfl
  obtain ⟨b, hb, ⟨-, hqb, hτb⟩ | ⟨hph, -, -⟩⟩ := h.waits p hwaits
  · intro q a hph hwoken hprev
    have hbp : b ≠ p := by
      intro he
      rw [he] at hτb
      omega
    simp only [next, hb, modify_node] at hph hwoken hprev ⊢
    by_cases hq : q = p
    · subst hq
      rw [if_pos rfl, if_neg hbp.symm] at hprev
      have hab : a = b := Option.some.inj (hprev.symm.trans hb)
      rw [hab, if_neg hbp, if_pos rfl]
    · rw [if_neg hq] at hph hwoken hprev
      have hph' : (s.node q).phase = .waiting := by
        by_cases hqb' : q = b
        · rwa [if_pos hqb'] at hph
        · rwa [if_neg hqb'] at hph
      have hwoken' : (s.node q).wokenBy = none := by
        by_cases hqb' : q = b
        · rwa [if_pos hqb'] at hwoken
        · rwa [if_neg hqb'] at hwoken
      have hprev' : (s.node q).prev = some a := by
        by_cases hqb' : q = b
        · rwa [if_pos hqb'] at hprev
        · rwa [if_neg hqb'] at hprev
      have hold := hl q a hph' hwoken' hprev'
      have hqw : Waits s q := by
        rw [Waits, hph']
        rfl
      obtain ⟨a', ha', ⟨-, hqa, hτa⟩ | ⟨-, hw, -⟩⟩ := h.waits q hqw
      · have haa : a' = a := Option.some.inj (ha'.symm.trans hprev')
        subst haa
        -- Two calls with one predecessor would hold one ticket.
        have hab : a' ≠ b := by
          intro he
          rw [he] at hτa
          exact hq (h.inj q p (queued_of_waits hqw) (queued_of_waits hwaits) (by omega))
        by_cases hap : a' = p
        · rw [if_pos hap, if_neg hab]
          exact hold
        · rw [if_neg hap, if_neg hab]
          exact hold
      · rw [hw] at hwoken'
        cases hwoken'
  · rw [hp] at hph
    cases hph

/-- Every step keeps the links. -/
theorem linked_next (h : Inv s τ lo hi) (hl : Linked s) {a : Action A} (hg : guard s a) :
    Linked (next s a) := by
  -- Links are stored by `link` alone, and a new node is linked before it waits for a wake.
  cases a with
  | startLock p w => exact linked_startLock h hl hg
  | publish p =>
      exact linked_modify hl p (fun n => { n with wait := some n.waiter, phase := .published })
        (by simp) rfl rfl
  | link p => exact linked_link h hl hg
  | resume p =>
      exact linked_modify hl p (fun n => { n with phase := .locked })
        (by simp) rfl rfl
  | poll p =>
      exact linked_modify hl p (fun n => { n with phase := .locked })
        (by simp) rfl rfl
  | unlock p =>
      simp only [next]
      split
      · exact linked_modify hl p (fun n => { n with phase := .free }) (by simp) rfl rfl
      · exact linked_modify hl p _ (by simp) rfl rfl
  | follow p =>
      simp only [next]
      split
      · exact linked_modify hl p _ (by simp) rfl rfl
      · exact hl
  | take p n =>
      have hslot : Linked (s.modify n fun m => { m with wait := none }) :=
        linked_modify hl n _ (fun hph hw => ⟨hph, hw⟩) rfl rfl
      simp only [next]
      split
      · exact linked_modify hslot p _ (by simp) rfl rfl
      · exact linked_modify hslot p _ (by simp) rfl rfl
  | wake p n w =>
      have hwoken : Linked (s.modify n fun m => { m with wokenBy := some p }) :=
        linked_modify hl n _ (by simp) rfl rfl
      exact linked_modify hwoken p (fun m => { m with phase := .free }) (by simp) rfl rfl

omit [DecidableEq A] in
/-- A change of nodes that leaves `tail` and starts no following. -/
theorem followed_of {s' : State A} (hf : Followed s) (ht : s'.tail = s.tail)
    (hph : ∀ p, (s'.node p).phase = .following → (s.node p).phase = .following) :
    Followed s' := by
  intro p hp
  rw [ht]
  exact hf p (hph p hp)

theorem followed_modify (hf : Followed s) (p : A) (f : Node A → Node A)
    (hph : (f (s.node p)).phase = .following → (s.node p).phase = .following) :
    Followed (s.modify p f) := by
  refine followed_of hf rfl fun q hq => ?_
  rw [modify_node] at hq
  by_cases hqp : q = p
  · subst hqp
    rw [if_pos rfl] at hq
    exact hph hq
  · rwa [if_neg hqp] at hq

/-- Every step keeps a node behind a releaser that has to follow. -/
theorem followed_next (hf : Followed s) {a : Action A} (hg : guard s a) :
    Followed (next s a) := by
  cases a with
  | startLock p w =>
      intro q hq
      change (Function.update s.node p (startNode w s.tail) q).phase = _ at hq
      change some p ≠ some q
      by_cases hqp : q = p
      · rw [hqp, Function.update_self] at hq
        change (if s.tail = none then Phase.locked else Phase.enqueued) = _ at hq
        split at hq <;> cases hq
      · exact fun he => hqp (Option.some.inj he).symm
  | publish p =>
      exact followed_modify hf p (fun n => { n with wait := some n.waiter, phase := .published })
        (by simp)
  | link p =>
      simp only [next]
      split
      · exact followed_modify (followed_modify hf _ _ id) p _ (by simp)
      · exact followed_modify hf p _ (by simp)
  | resume p =>
      exact followed_modify hf p (fun n => { n with phase := .locked }) (by simp)
  | poll p =>
      exact followed_modify hf p (fun n => { n with phase := .locked }) (by simp)
  | unlock p =>
      simp only [next]
      split
      · exact fun q _ => by simp
      next ht =>
        -- The compare and exchange fails as somebody else is the last.
        intro q hq
        rw [modify_node] at hq
        by_cases hqp : q = p
        · rw [hqp]
          exact ht
        · rw [if_neg hqp] at hq
          exact hf q hq
  | follow p =>
      simp only [next]
      split
      · exact followed_modify hf p _ (by simp)
      · exact hf
  | take p n =>
      simp only [next]
      split
      · exact followed_modify (followed_modify hf n _ id) p _ (by simp)
      · exact followed_modify (followed_modify hf n _ id) p _ (by simp)
  | wake p n w =>
      have hwoken : Followed (s.modify n fun m => { m with wokenBy := some p }) :=
        followed_modify hf n _ id
      exact followed_modify hwoken p (fun m => { m with phase := .free }) (by simp)

end

end DualMutex

end Cmpth

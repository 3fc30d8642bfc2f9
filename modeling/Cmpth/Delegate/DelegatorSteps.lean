import Cmpth.Delegate.DelegatorInv

/-!
# The Callers of a Delegator

Every step of a caller keeps the invariant of `Delegator`, over the abstract lock.

The two ends of a handover are changed together: the caller that lets the lock go, and the one
that wakes up with it. The claim that is next is known to be asleep once it is linked
(`Inv.next_asleep`), and only the one at the head has its turn.

## Theorems

* `Inv.behind`: A caller that has not linked itself is behind the head.
* `Inv.next_asleep`: A caller that is next, and linked, is asleep.
* `inv_call`, `inv_startLock`, `inv_fill`, `inv_link`, `inv_own`, `inv_unlock`, `inv_rest`,
  `inv_return`, `inv_complete`: The steps.
* `past_claimed`, `past_eq`, `State.past_claimed`, `past_set`: What a caller has to do with the
  queue.
* `Inv.ran_iff`, `Inv.inj`, `Inv.claim_ne`: The claims and the turns.
* `Inv.not_holder`, `Inv.holds`, `Inv.taken`, `Inv.head`, `taken_of_not_holder`, `Inv.isSet_iff`,
  `Inv.sth`: Who has the lock and whose token is where.
* `Inv.step`, `Keeps.of_caller`, `Inv.apart`, `Inv.advance`: Steps of one caller.
* `Inv.handOver`, `Inv.handBack`, `Inv.moved`, `inv_follow`: The lock goes on to another.
-/

namespace Cmpth

namespace Delegate

namespace Delegator

variable {K Req Resp : Type*} {s s' : State K Req Resp} {q q' : LockQueue} {m m' : Mode K}
  {k j : K} {c : Caller K Req Resp}

theorem past_claimed (hpc : c.pc.claimed = true) : c.past = some ⟨c.claim, c.ran, c.asked⟩ :=
  if_pos hpc

theorem past_eq {c' : Caller K Req Resp} (hpc : c.pc.claimed = true) (hpc' : c'.pc.claimed = true)
    (hclaim : c'.claim = c.claim) (hran : c'.ran = c.ran) (hasked : c'.asked = c.asked) :
    c'.past = c.past := by
  rw [past_claimed hpc, past_claimed hpc', hclaim, hran, hasked]

theorem State.past_claimed (hpc : (s.caller k).pc.claimed = true) :
    s.past k = some ⟨(s.caller k).claim, (s.caller k).ran, (s.caller k).asked⟩ :=
  if_pos hpc

/-- A turn that has not come is behind those that have. -/
theorem Inv.ran_iff (h : Inv s q m) (hpc : (s.caller k).pc.claimed = true) :
    (s.caller k).ran = true ↔ (s.caller k).claim ≤ s.served.length :=
  h.history.ran k _ (State.past_claimed hpc)

theorem Inv.inj (h : Inv s q m) (hk : (s.caller k).pc.claimed = true)
    (hj : (s.caller j).pc.claimed = true) (heq : (s.caller k).claim = (s.caller j).claim) :
    k = j :=
  h.history.inj (State.past_claimed hk) (State.past_claimed hj) heq

theorem Inv.not_holder (h : Inv s q m) (hpc : ¬ (s.caller k).pc.Holds) : m.holder ≠ some k := by
  cases m with
  | free | thread => rintro ⟨⟩
  | caller j =>
      intro hx
      cases hx
      have hok := h.mode.2.2.2.2
      revert hok hpc
      cases (s.caller k).pc <;> simp [Pc.Ok, Pc.Holds]

/-- A caller that has the lock is the one the mode names. -/
theorem Inv.holds (h : Inv s q m) (hpc : (s.caller k).pc.Holds) : m = .caller k := by
  have hok := h.callers k
  have hholder : (m.scene s q).holder = some k := by
    unfold Caller.Ok at hok
    cases hpc' : (s.caller k).pc <;> rw [hpc'] at hok hpc
    case executing | inside => exact hok.2.2.2
    case unlocking => exact hok.2.2
    case resting => exact hok.2.2.2.2.2
    all_goals exact hpc.elim
  cases m with
  | free | thread => cases hholder
  | caller j =>
      cases hholder
      rfl

/-- The caller whose token is taken has its turn next. -/
theorem Inv.taken (h : Inv s q m) (hj : m.taken s = some j) :
    Pending s q j ∧ (s.caller j).asked = none := by
  -- Only a holder that rests, or the consumer thread, takes a caller out of its slot.
  cases m with
  | free => cases hj
  | caller k =>
      have hok := h.mode.2.2.2.2
      change (s.caller k).pc.takes = some j at hj
      cases hpc : (s.caller k).pc with
      | resting stage =>
          rw [hpc] at hj hok
          cases stage with
          | parking next =>
              change next = some j at hj
              subst hj
              exact hok
          | asking | suspending | releasing | cancelling | following | handing _ | passing _
          | waking => cases hj
      | idle | starting | waiting _ | linking _ | asleep | executing | inside | unlocking _
      | returning | returned _ =>
          rw [hpc] at hj
          cases hj
  | thread =>
      have hok := h.mode.2.2.2
      change s.consumer.takes = some j at hj
      cases hpc : s.consumer with
      | parking k =>
          rw [hpc] at hj hok
          cases hj
          exact hok
      | starting | top | following | asking _ | executing | finishing _ _ | swapping
      | progressing | checking _ | waking _ _ | suspending | releasing | cancelling | parked =>
          rw [hpc] at hj
          cases hj

/-- The head has had its turn, or it is that of a caller whose turn it is. -/
theorem Inv.head (h : Inv s q m) (hm : m ≠ .free) :
    Done s q ∨ s.served.length + 1 = q.served ∧ ∃ j, (s.caller j).claim = q.served ∧
      ((s.caller j).pc = .asleep ∨ (s.caller j).pc.Holds) := by
  -- A caller whose turn it is sleeps at the head.
  have hpending : (∃ j, Pending s q j) → Done s q ∨ s.served.length + 1 = q.served ∧
      ∃ j, (s.caller j).claim = q.served ∧
        ((s.caller j).pc = .asleep ∨ (s.caller j).pc.Holds) := by
    rintro ⟨j, _, hpc, _, hclaim, hlen⟩
    exact .inr ⟨hlen, j, hclaim, .inl hpc⟩
  have hknows : Knows s q → Done s q ∨ s.served.length + 1 = q.served ∧
      ∃ j, (s.caller j).claim = q.served ∧
        ((s.caller j).pc = .asleep ∨ (s.caller j).pc.Holds) := by
    rintro (⟨_, hd⟩ | ⟨_, hj⟩)
    · exact .inl hd
    · exact hpending hj
  -- Whoever has the lock knows which of the two it is, by where it is.
  cases m with
  | free => exact absurd rfl hm
  | caller k =>
      have hok := h.mode.2.2.2.2
      cases hpc : (s.caller k).pc with
      | executing | inside =>
          rw [hpc] at hok
          exact .inr ⟨hok.2, k, hok.1, .inr (by rw [hpc]; trivial)⟩
      | unlocking stage =>
          rw [hpc] at hok
          cases stage with
          | asking => exact .inl hok
          | releasing | following => exact .inl hok.1
          | handing i => exact hpending hok.2.2
          | passing i => exact hpending (hok.2.imp fun _ hx => hx.1)
          | waking => exact hknows hok
      | resting stage =>
          rw [hpc] at hok
          cases stage with
          | asking => exact .inl hok
          | suspending | releasing | cancelling => exact hok.elim
          | following => exact .inl hok.1
          | handing i => exact hpending hok.2.2
          | passing i => exact hpending (hok.2.imp fun _ hx => hx.1)
          | waking => exact hknows hok
          | parking next =>
              cases next with
              | none => exact hknows hok
              | some j => exact hpending ⟨j, hok.1⟩
      | idle | starting | waiting _ | linking _ | asleep | returning | returned _ =>
          rw [hpc] at hok
          exact hok.elim
  | thread =>
      have hok := h.mode.2.2.2
      cases hpc : s.consumer with
      | starting | parked =>
          rw [hpc] at hok
          exact hok.elim
      | top =>
          rw [hpc] at hok
          exact hknows hok
      | following | progressing =>
          rw [hpc] at hok
          exact .inl hok
      | asking isExecuted =>
          rw [hpc] at hok
          cases isExecuted with
          | true => exact .inl hok
          | false => exact hpending hok
      | executing | swapping =>
          rw [hpc] at hok
          exact hpending (hok.imp fun _ hx => hx.1)
      | parking j =>
          rw [hpc] at hok
          exact hpending ⟨j, hok.1⟩
      | finishing _ _ | checking _ | waking _ _ | suspending | releasing | cancelling =>
          rw [hpc] at hok
          exact .inl hok.1

/-- A caller that has not linked itself is behind the head. -/
theorem Inv.behind (h : Inv s q m) (hclaimed : (s.caller k).pc.claimed = true)
    (hpc : (s.caller k).pc ≠ .asleep ∧ ¬ (s.caller k).pc.Holds)
    (hran : (s.caller k).ran = false) : m ≠ .free ∧ q.served < (s.caller k).claim := by
  have hlt : s.served.length < (s.caller k).claim := by
    rw [← Nat.not_le, ← h.ran_iff hclaimed, hran]
    exact Bool.false_ne_true
  have hm : m ≠ .free := by
    rintro rfl
    have hcount := h.mode.2.1
    have hx : (s.caller k).claim < q.claimed :=
      h.history.claim_lt (State.past_claimed hclaimed)
    omega
  refine ⟨hm, ?_⟩
  -- The claim at the head is that of another: one that sleeps, or one that holds.
  rcases h.head hm with hd | ⟨hlen, j, hj, hjpc⟩
  · rw [← hd]
    exact hlt
  · refine Nat.lt_of_le_of_ne (by omega) fun hx => ?_
    have hkj : k = j := by
      refine h.inj hclaimed ?_ (hx.symm.trans hj.symm)
      revert hjpc
      cases (s.caller j).pc <;> simp [Pc.claimed, Pc.Holds]
    subst hkj
    exact hjpc.elim hpc.1 hpc.2

/-- The claim that comes after the head is that of a caller that is asleep, once it is linked. -/
theorem Inv.next_asleep (h : Inv s q m) (hd : Done s q) (hnext : q.HasNext) :
    ∃ j, (s.caller j).pc = .asleep ∧ (s.caller j).ran = false ∧
      (s.caller j).claim = q.served + 1 ∧ s.node (q.served + 1) = some j := by
  have hlt : q.served < s.order.length := by
    have hcount := h.history.count
    have := hnext.1
    omega
  rcases (h.history.claim q.served _).mp (List.getElem?_eq_getElem hlt) with ⟨p, hp, hclaim⟩
  generalize s.order[q.served] = j at hp
  have hclaimed : (s.caller j).pc.claimed = true := by
    by_contra hx
    rw [State.past, Caller.past, if_neg hx] at hp
    cases hp
  rw [State.past_claimed hclaimed] at hp
  cases hp
  change (s.caller j).claim = q.served + 1 at hclaim
  -- Its turn has not come: the turns have only come up to the head.
  have hran : (s.caller j).ran = false := by
    rw [← Bool.not_eq_true, h.ran_iff hclaimed, hclaim, hd]
    omega
  have hlinked : q.linked (s.caller j).claim = true := by
    rw [hclaim]
    exact hnext.2
  -- So it is not the holder, whose turn has.
  have hholds : ¬ (s.caller j).pc.Holds := by
    intro hx
    cases h.holds hx
    have hok := h.mode.2.2.2.2
    have hj := h.callers j
    unfold Caller.Ok at hj
    cases hpc : (s.caller j).pc <;> rw [hpc] at hok hj hx
    case executing | inside =>
      have := hok.1
      omega
    case unlocking =>
      rw [hj.1.1] at hran
      cases hran
    case resting =>
      rw [hj.1] at hran
      cases hran
    all_goals exact hx
  refine ⟨j, ?_⟩
  have hok := h.callers j
  unfold Caller.Ok at hok
  -- Of the callers with a claim only one that is asleep has linked itself and waits.
  cases hpc : (s.caller j).pc <;> rw [hpc] at hok hclaimed hholds
  case asleep =>
    rcases hok.2 with ⟨_, _, hnode⟩ | ⟨hx, _⟩
    · refine ⟨rfl, hran, hclaim, ?_⟩
      rw [← hclaim]
      exact hnode
    · rw [hx] at hran
      cases hran
  case waiting i =>
    rcases hok with ⟨_, _, rfl, hx⟩
    exact absurd (hlinked.symm.trans hx) (by simp)
  case linking i =>
    rcases hok with ⟨_, _, rfl, hx, _⟩
    exact absurd (hlinked.symm.trans hx) (by simp)
  case returning | returned =>
    rw [hok.1.1] at hran
    cases hran
  case idle | starting => cases hclaimed
  all_goals exact absurd trivial hholds

/-- A step that leaves the claims and the turns as they were. -/
theorem Inv.step (h : Inv s q m) (hpast : ∀ k, (s'.caller k).past = (s.caller k).past)
    (hcallers : ∀ k, (s'.caller k).Ok k (m'.scene s' q')) (hmode : m'.Ok s' q') (hlock : q'.Ok)
    (hcount : q'.claimed = q.claimed)
    (hlists : s'.order = s.order ∧ s'.served = s.served ∧ s'.executed = s.executed)
    (hintact : s'.broken = false) : Inv s' q' m' := by
  refine ⟨hlock, ?_, hcallers, hmode, hintact⟩
  have hsame : s'.past = s.past := funext hpast
  rw [hsame, hlists.1, hlists.2.1, hlists.2.2, hcount]
  exact h.history

variable [DecidableEq K]

theorem past_set {f : K → Caller K Req Resp} (h : c.past = (f k).past) (k' : K) :
    (Function.update f k c k').past = (f k').past := by
  by_cases hkk : k' = k
  · rw [hkk, Function.update_self]
    exact h
  · rw [Function.update_of_ne hkk]

omit [DecidableEq K] in
theorem taken_of_not_holder (hm : m.holder ≠ some k) (hother : ∀ k', k' ≠ k →
    s'.caller k' = s.caller k') (hconsumer : s'.consumer = s.consumer) :
    m.taken s' = m.taken s := by
  cases m with
  | free => rfl
  | caller h =>
      change (s'.caller h).pc.takes = (s.caller h).pc.takes
      rw [hother h fun hx => hm (congrArg some hx)]
  | thread =>
      change s'.consumer.takes = s.consumer.takes
      rw [hconsumer]

omit [DecidableEq K] in
/-- A caller that is neither asleep nor has the lock counts for nobody else. -/
theorem Keeps.of_caller (hpc : (s.caller k).pc ≠ .asleep ∧ ¬ (s.caller k).pc.Holds)
    (hother : ∀ k', k' ≠ k → s'.caller k' = s.caller k')
    (hkept : (s'.caller k).kept = (s.caller k).kept ∧ (s'.caller k).given = (s.caller k).given ∧
      (s'.caller k).out = (s.caller k).out)
    (hserved : s'.served = s.served) (hexecuted : s'.isExecuted = s.isExecuted)
    (hhead : q'.served = q.served)
    (hnode : ∀ j, s.node q.served = some j → s'.node q.served = some j) : Keeps s s' q q' := by
  refine ⟨hserved, hexecuted, hhead, hnode, fun k' hk' => ?_, fun k' hk' => ?_⟩
  · have hne : k' ≠ k := by
      rintro rfl
      exact hk'.elim hpc.1 hpc.2
    rw [hother k' hne]
    exact ⟨rfl, rfl, rfl, rfl⟩
  · -- Of the caller itself nothing is asked; the others are as they were.
    by_cases hkk : k' = k
    · subst hkk
      rw [hkept.1, hkept.2.1, hkept.2.2]
      exact ⟨hk', rfl, rfl⟩
    · rw [hother k' hkk]
      exact ⟨hk', rfl, rfl⟩

/-- `call` and `with_lock` begin. -/
theorem inv_call (h : Inv s q m) (hpc : (s.caller k).pc = .idle) (asked : Option Req) :
    Inv (s.set k { s.caller k with asked := asked, pc := .starting }) q m := by
  have hok := h.callers k
  unfold Caller.Ok at hok
  rw [hpc] at hok
  have hnot : (s.caller k).pc ≠ .asleep ∧ ¬ (s.caller k).pc.Holds := by
    rw [hpc]
    exact ⟨by simp, id⟩
  -- The call begins outside of the queue.
  have hother : ∀ k', k' ≠ k → (s.set k { s.caller k with asked := asked, pc := .starting }).caller
      k' = s.caller k' := fun k' hk' => Function.update_of_ne hk' ..
  have htaken := taken_of_not_holder (h.not_holder hnot.2) hother rfl
  refine h.step (past_set ?_) (okAll_update h.callers hok fun k' hk' => ?_)
    (h.mode.keep (.of_caller hnot hother ?_ rfl rfl rfl fun _ => id) rfl rfl rfl (Nat.le_refl _)
      fun _ => rfl) h.lock rfl ⟨rfl, rfl, rfl⟩ h.intact
  · rw [Caller.past, Caller.past, hpc]
    rfl
  · refine ⟨fun _ => ⟨rfl, rfl⟩, Iff.rfl, ?_, Iff.rfl⟩
    change m.taken _ = _ ↔ m.taken s = _
    rw [htaken]
  · change (Function.update s.caller k _ k).kept = _ ∧ (Function.update s.caller k _ k).given = _ ∧
      (Function.update s.caller k _ k).out = _
    rw [Function.update_self]
    exact ⟨rfl, rfl, rfl⟩

/-- `start_lock`: the lock is free, and the caller gets it, or it is behind somebody. -/
theorem inv_startLock (h : Inv s q m) (hpc : (s.caller k).pc = .starting) :
    ∃ m', Inv (s.startLock k (q.result .startLock)) (q.after .startLock) m' := by
  have hok := h.callers k
  unfold Caller.Ok at hok
  rw [hpc] at hok
  rcases hok with ⟨⟨hran, hkept, hvalue⟩, hsth⟩
  have hnot : (s.caller k).pc ≠ .asleep ∧ ¬ (s.caller k).pc.Holds := by
    rw [hpc]
    exact ⟨by simp, id⟩
  have hnone : s.past k = none := by
    rw [State.past, Caller.past, hpc]
    rfl
  have hlock : (q.after .startLock).Ok := h.lock.after trivial
  have hhistory : ∀ c : Caller K Req Resp, c.pc.claimed = true → c.claim = q.claimed →
      c.ran = false → History (fun k' => (Function.update s.caller k c k').past)
        (s.order ++ [k]) s.served s.executed (q.claimed + 1) := by
    intro c hclaimed hclaim hcran
    rw [past_update, past_claimed hclaimed, hclaim, hcran]
    exact h.history.join hnone _
  by_cases hfree : q.served = q.claimed
  · -- The lock is free.
    have hm : m = .free := by
      cases m with
      | free => rfl
      | caller _ | thread => exact absurd hfree (Nat.ne_of_lt h.mode.1)
    subst hm
    rcases h.mode with ⟨_, hlen, hparked, hset, _⟩
    -- The caller has the lock, and is on its way to its request or its section.
    have hpcs : ∀ pc : Pc K Resp,
        pc = (if (s.caller k).asked = none then .inside else .executing) → pc.claimed = true ∧
          pc.takes = none ∧ pc ≠ .resting (.parking none) ∧
          (∀ s' : State K Req Resp, s'.served = s.served →
            pc.Ok s' (q.after .startLock) q.claimed) ∧
          ∀ e : Scene K, e.holder = some k →
            ({ s.caller k with claim := q.claimed, pc := pc } : Caller K Req Resp).Ok k e := by
      rintro pc rfl
      by_cases hasked : (s.caller k).asked = none
      · rw [if_pos hasked]
        exact ⟨rfl, rfl, by simp, fun s' hs' => ⟨hfree.symm, by rw [hs', hlen, ← hfree]; rfl⟩,
          fun e he => ⟨⟨hran, hkept, hvalue⟩, hsth, hasked, he⟩⟩
      · rw [if_neg hasked]
        exact ⟨rfl, rfl, by simp, fun s' hs' => ⟨hfree.symm, by rw [hs', hlen, ← hfree]; rfl⟩,
          fun e he => ⟨⟨hran, hkept, hvalue⟩, hsth, hasked, he⟩⟩
    rcases hpcs _ rfl with ⟨hclaimed, htakes, hne, hat, hself⟩
    rw [LockQueue.result, beq_iff_eq.mpr hfree]
    refine ⟨.caller k, hlock, hhistory _ hclaimed rfl hran,
      okAll_update h.callers (hself _ rfl) fun k' hk' => ?_, ?_, h.intact⟩
    · refine ⟨fun _ => ⟨rfl, rfl⟩, iff_of_false (fun hx => hk' (Option.some.inj hx).symm)
        (by rintro ⟨⟩), iff_of_false ?_ (by rintro ⟨⟩), Iff.rfl⟩
      change (Function.update s.caller k _ k).pc.takes ≠ _
      rw [Function.update_self]
      refine ne_of_eq_of_ne htakes ?_
      rintro ⟨⟩
    · refine ⟨Nat.lt_succ_of_le (Nat.le_of_eq hfree), hfree.symm, hparked, ?_, ?_⟩
      · change s.consumerSth = true ↔ (Function.update s.caller k _ k).pc ≠ _
        rw [Function.update_self]
        exact iff_of_true hset hne
      · change (Function.update s.caller k _ k).pc.Ok _ _ (Function.update s.caller k _ k).claim
        rw [Function.update_self]
        exact hat _ rfl
  · have hm : m ≠ .free := by
      rintro rfl
      exact hfree h.mode.1
    -- Somebody has it: the caller is the last one behind.
    rw [LockQueue.result, beq_false_of_ne hfree]
    have hother : ∀ k', k' ≠ k → (s.startLock k (.claimed q.claimed false)).caller k' =
        s.caller k' := fun k' hk' => Function.update_of_ne hk' ..
    have htaken := taken_of_not_holder (h.not_holder hnot.2) hother rfl
    refine ⟨m, hlock, hhistory _ rfl rfl hran, okAll_update h.callers ?_ fun k' hk' => ?_,
      h.mode.keep (.of_caller hnot hother ?_ rfl rfl rfl fun _ => id) rfl rfl rfl
        (Nat.le_succ _) fun hx => absurd hx hm, h.intact⟩
    · exact ⟨⟨hran, hkept, hvalue⟩, hsth, rfl, h.lock.linked _ (Nat.le_refl _)⟩
    · refine ⟨fun _ => ⟨rfl, rfl⟩, Iff.rfl, ?_, Iff.rfl⟩
      change m.taken _ = _ ↔ m.taken s = _
      rw [htaken]
    · change (Function.update s.caller k _ k).kept = _ ∧
        (Function.update s.caller k _ k).given = _ ∧ (Function.update s.caller k _ k).out = _
      rw [Function.update_self]
      exact ⟨rfl, rfl, rfl⟩

omit [DecidableEq K] in
/-- The caller of another claim than this one. -/
theorem Inv.claim_ne (h : Inv s q m) (hk : (s.caller k).pc.claimed = true) {k' : K}
    (hkk : k' ≠ k) (hk' : (s.caller k').pc.claimed = true) :
    (s.caller k').claim ≠ (s.caller k).claim :=
  fun hx => hkk (h.inj hk' hk hx)

/-- A step of a caller that is not asleep and does not have the lock. -/
theorem Inv.apart (h : Inv s q m) (hnot : (s.caller k).pc ≠ .asleep ∧ ¬ (s.caller k).pc.Holds)
    (hcaller : s'.caller = Function.update s.caller k c) (hpast : c.past = (s.caller k).past)
    (hkept : c.kept = (s.caller k).kept ∧ c.given = (s.caller k).given ∧
      c.out = (s.caller k).out)
    (hself : ∀ e : Scene K, e.linked = q'.linked → e.node = s'.node → e.taken = m.taken s →
      c.Ok k e)
    (hclaim : ∀ k', k' ≠ k → (s.caller k').pc.claimed = true →
      q'.linked (s.caller k').claim = q.linked (s.caller k').claim ∧
        s'.node (s.caller k').claim = s.node (s.caller k').claim)
    (hnode : ∀ j, s.node q.served = some j → s'.node q.served = some j)
    (hfields : s'.head = s.head ∧ s'.isExecuted = s.isExecuted ∧ s'.consumer = s.consumer ∧
      s'.consumerSth = s.consumerSth ∧ s'.broken = s.broken)
    (hlists : s'.order = s.order ∧ s'.served = s.served ∧ s'.executed = s.executed)
    (hlock : q'.Ok) (hq : q'.served = q.served ∧ q'.claimed = q.claimed) : Inv s' q' m := by
  rcases hfields with ⟨hhead, hexecuted, hconsumer, hsth, hbroken⟩
  have hother : ∀ k', k' ≠ k → s'.caller k' = s.caller k' := fun k' hk' => by
    rw [hcaller]
    exact Function.update_of_ne hk' ..
  have hk : s'.caller k = c := by
    rw [hcaller]
    exact Function.update_self ..
  -- Whose token is taken does not depend on this caller.
  have htaken := taken_of_not_holder (h.not_holder hnot.2) hother hconsumer
  refine h.step (fun k' => ?_) (fun k' => ?_) (h.mode.keep (.of_caller hnot hother ?_ hlists.2.1
    hexecuted hq.1 hnode) hhead hconsumer hsth (Nat.le_of_eq hq.2.symm) fun _ => hq.2) hlock hq.2
    hlists (hbroken.trans h.intact)
  · rw [hcaller]
    exact past_set hpast k'
  · rw [hcaller]
    refine okAll_update h.callers (hself _ rfl rfl htaken) (fun k' hk' => ?_) k'
    refine ⟨hclaim k' hk', Iff.rfl, ?_, ?_⟩
    · change m.taken s' = _ ↔ m.taken s = _
      rw [htaken]
    · change s'.consumer.wakes = _ ↔ s.consumer.wakes = _
      rw [hconsumer]
  · rw [hk]
    exact hkept

/-- A caller fills in its node, and suspends. -/
theorem inv_fill (h : Inv s q m) {i : Nat} (hpc : (s.caller k).pc = .waiting i) :
    Inv { s.set k { s.caller k with sth := true, pc := .linking i } with
      node := Function.update s.node i (some k) } q m := by
  have hok := h.callers k
  unfold Caller.Ok at hok
  rw [hpc] at hok
  rcases hok with ⟨hfresh, hsth, hclaim, hlinked⟩
  have hclaimed : (s.caller k).pc.claimed = true := by
    rw [hpc]
    rfl
  have hnot : (s.caller k).pc ≠ .asleep ∧ ¬ (s.caller k).pc.Holds := by
    rw [hpc]
    exact ⟨by simp, id⟩
  refine h.apart hnot rfl (past_eq hclaimed rfl rfl rfl rfl) ⟨rfl, rfl, rfl⟩
    (fun e hl hn _ => ⟨hfresh, rfl, hclaim, ?_, ?_⟩) (fun k' hk' hk'' => ⟨rfl, ?_⟩)
    (fun j hj => ?_) ⟨rfl, rfl, rfl, rfl, rfl⟩ ⟨rfl, rfl, rfl⟩ h.lock ⟨rfl, rfl⟩
  · rw [hl]
    exact hlinked
  · rw [hn]
    exact Function.update_self ..
  · refine Function.update_of_ne ?_ ..
    rw [← hclaim]
    exact h.claim_ne hclaimed hk' hk''
  · -- Its claim is behind the one that is being served.
    have hlt := (h.behind hclaimed hnot hfresh.1).2
    rw [hclaim] at hlt
    change Function.update s.node i (some k) q.served = _
    rw [Function.update_of_ne (Nat.ne_of_lt hlt)]
    exact hj

/-- A caller links its node, which the protocol lets it. -/
theorem inv_link (h : Inv s q m) {i : Nat} (hpc : (s.caller k).pc = .linking i) :
    q.allowed (.setNext i) ∧ Inv (s.setPc k .asleep) (q.after (.setNext i)) m := by
  have hok := h.callers k
  unfold Caller.Ok at hok
  rw [hpc] at hok
  rcases hok with ⟨hfresh, hsth, hclaim, hlinked, hnode⟩
  have hclaimed : (s.caller k).pc.claimed = true := by
    rw [hpc]
    rfl
  have hnot : (s.caller k).pc ≠ .asleep ∧ ¬ (s.caller k).pc.Holds := by
    rw [hpc]
    exact ⟨by simp, id⟩
  have hallowed : q.allowed (.setNext i) := by
    refine ⟨?_, ?_, hlinked⟩
    · rw [← hclaim]
      exact (h.behind hclaimed hnot hfresh.1).2
    · rw [← hclaim]
      exact h.history.claim_lt (State.past_claimed hclaimed)
  refine ⟨hallowed, h.apart hnot rfl (past_eq hclaimed rfl rfl rfl rfl) ⟨rfl, rfl, rfl⟩
    (fun e hl hn ht => ⟨iff_of_true hsth ?_, .inl ⟨hfresh, ?_, ?_⟩⟩)
    (fun k' hk' hk'' => ⟨Function.update_of_ne ?_ .., rfl⟩)
    (fun _ => id) ⟨rfl, rfl, rfl, rfl, rfl⟩ ⟨rfl, rfl, rfl⟩ (h.lock.after hallowed) ⟨rfl, rfl⟩⟩
  · -- A token that has been taken is that of a caller that is asleep.
    rw [ht]
    intro hx
    exact hnot.1 (h.taken hx).1.2.1
  · rw [hl]
    change Function.update q.linked i true (s.caller k).claim = true
    rw [hclaim]
    exact Function.update_self ..
  · rw [hn]
    change s.node (s.caller k).claim = some k
    rw [hclaim]
    exact hnode
  · rw [← hclaim]
    exact h.claim_ne hclaimed hk' hk''

/-- A caller takes its response, and returns. -/
theorem inv_return (h : Inv s q m) (hpc : (s.caller k).pc = .returning) :
    Inv (s.setPc k (.returned (s.caller k).response)) q m := by
  have hok := h.callers k
  unfold Caller.Ok at hok
  rw [hpc] at hok
  have hnot : (s.caller k).pc ≠ .asleep ∧ ¬ (s.caller k).pc.Holds := by
    rw [hpc]
    exact ⟨by simp, id⟩
  exact h.apart hnot rfl (past_eq (by rw [hpc]; rfl) rfl rfl rfl rfl) ⟨rfl, rfl, rfl⟩
    (fun e _ _ _ => ⟨hok.1, hok.2, rfl⟩) (fun _ _ _ => ⟨rfl, rfl⟩) (fun _ => id)
    ⟨rfl, rfl, rfl, rfl, rfl⟩ ⟨rfl, rfl, rfl⟩ h.lock ⟨rfl, rfl⟩

/-- The holder has its own turn. -/
theorem inv_own (h : Inv s q m) (hpc : (s.caller k).pc = .executing ∨ (s.caller k).pc = .inside)
    (hcaller : s'.caller = Function.update s.caller k c)
    (hpast : c.past = some ⟨(s.caller k).claim, true, (s.caller k).asked⟩)
    (hself : ∀ e : Scene K, e.holder = some k → c.Ok k e)
    (hstage : c.pc = .unlocking .asking ∨ c.pc = .resting .asking)
    (hfields : s'.head = s.head ∧ s'.node = s.node ∧ s'.consumer = s.consumer ∧
      s'.consumerSth = s.consumerSth ∧ s'.broken = s.broken)
    (hlists : s'.order = s.order ∧ s'.served = s.served ++ [k] ∧
      s'.executed = s.executed ++ (s.caller k).asked.toList.map (k, ·)) : Inv s' q m := by
  rcases hfields with ⟨hhead, hnode, hconsumer, hsth, hbroken⟩
  -- From `running` as from `inside` the holder has the oldest claim, which it may now serve.
  have hholds : (s.caller k).pc.Holds := by
    rcases hpc with hpc | hpc <;> rw [hpc] <;> trivial
  cases h.holds hholds
  have hclaimed : (s.caller k).pc.claimed = true := by
    rcases hpc with hpc | hpc <;> rw [hpc] <;> rfl
  rcases h.mode with ⟨hlt, hat, hparked, hset, hok⟩
  have hturn : (s.caller k).claim = q.served ∧ s.served.length + 1 = q.served := by
    rcases hpc with hpc | hpc <;> rw [hpc] at hok <;> exact hok
  have htakes : (s.caller k).pc.takes = none ∧ c.pc.takes = none := by
    rcases hpc with hpc | hpc <;> rcases hstage with hc | hc <;> rw [hpc, hc] <;> exact ⟨rfl, rfl⟩
  have hk : s'.caller k = c := by
    rw [hcaller]
    exact Function.update_self ..
  -- It is counted as served, and nobody else's past has changed.
  have hdone : Done s' q := by
    unfold Done
    rw [hlists.2.1, List.length_append, List.length_singleton]
    exact hturn.2
  refine ⟨h.lock, ?_, ?_, ⟨hlt, hhead.trans hat, hconsumer.trans hparked, ?_, ?_⟩,
    hbroken.trans h.intact⟩
  · have hpast' : s'.past = Function.update s.past k
        (some ⟨(s.caller k).claim, true, (s.caller k).asked⟩) := by
      change (fun k' => (s'.caller k').past) = _
      rw [hcaller, past_update, hpast]
      rfl
    rw [hpast', hlists.1, hlists.2.1, hlists.2.2]
    exact h.history.turn (State.past_claimed hclaimed) (hturn.1.trans hturn.2.symm)
  · rw [hcaller]
    refine okAll_update h.callers (hself _ rfl) fun k' hk' => ⟨fun _ => ⟨rfl, ?_⟩, Iff.rfl, ?_, ?_⟩
    · exact congrFun hnode _
    · change (s'.caller k).pc.takes = _ ↔ (s.caller k).pc.takes = _
      rw [hk, htakes.1, htakes.2]
    · change s'.consumer.wakes = _ ↔ s.consumer.wakes = _
      rw [hconsumer]
  · rw [hsth, hk, hset]
    rcases hpc with hpc | hpc <;> rcases hstage with hc | hc <;> rw [hpc, hc] <;> simp
  · rw [hk]
    rcases hstage with hc | hc <;> rw [hc] <;> exact hdone

/-- The holder goes on to its next stage. -/
theorem Inv.advance (h : Inv s q (.caller k)) {p : Pc K Resp}
    (hcaller : s'.caller = Function.update s.caller k { s.caller k with pc := p })
    (hclaimed : (s.caller k).pc.claimed = true ∧ p.claimed = true)
    (hself : ∀ e : Scene K, (s.caller k).Ok k e →
      ({ s.caller k with pc := p } : Caller K Req Resp).Ok k e)
    (htakes : (s.caller k).pc.takes = none ∧ p.takes = none)
    (hsits : (s.caller k).pc ≠ .resting (.parking none) ∧ p ≠ .resting (.parking none))
    (hfields : s'.node = s.node ∧ s'.consumer = s.consumer ∧ s'.consumerSth = s.consumerSth ∧
      s'.broken = s.broken)
    (hlists : s'.order = s.order ∧ s'.served = s.served ∧ s'.executed = s.executed)
    (hlock : q'.Ok) (hq : q'.linked = q.linked ∧ q'.claimed = q.claimed)
    (hlt : q'.served < q'.claimed) (hhead : s'.head = q'.served)
    (hok : p.Ok s' q' (s.caller k).claim) : Inv s' q' (.caller k) := by
  rcases hfields with ⟨hnode, hconsumer, hsth, hbroken⟩
  rcases h.mode with ⟨_, _, hparked, hset, _⟩
  have hk : s'.caller k = { s.caller k with pc := p } := by
    rw [hcaller]
    exact Function.update_self ..
  -- The node, the consumer thread and what is served are as before.
  have hagrees : ∀ (k' : K) (d : Caller K Req Resp),
      ((Mode.caller k).scene s q).Agrees ((Mode.caller k).scene s' q') k' d := by
    intro k' d
    refine ⟨fun _ => ⟨congrFun hq.1 _, congrFun hnode _⟩, Iff.rfl, ?_, ?_⟩
    · change (s'.caller k).pc.takes = _ ↔ (s.caller k).pc.takes = _
      rw [hk, htakes.1, htakes.2]
    · change s'.consumer.wakes = _ ↔ s.consumer.wakes = _
      rw [hconsumer]
  refine h.step (fun k' => ?_) (fun k' => ?_)
    ⟨hlt, hhead, hconsumer.trans hparked, ?_, ?_⟩ hlock hq.2 hlists (hbroken.trans h.intact)
  · rw [hcaller]
    refine past_set ?_ k'
    exact past_eq hclaimed.1 hclaimed.2 rfl rfl rfl
  · rw [hcaller]
    exact okAll_update h.callers (hself _ ((h.callers k).congr (hagrees k _)))
      (fun k' _ => hagrees k' _) k'
  · rw [hsth, hk, hset]
    exact iff_of_true hsits.1 hsits.2
  · rw [hk]
    exact hok

/-- The holder lets the lock go, and the caller that is next has it: it was asleep, and is now
    in its closure. -/
theorem Inv.handOver (h : Inv s q (.caller k)) (hclaimed : (s.caller k).pc.claimed = true)
    (hcclaimed : c.pc.claimed = true)
    (hsame : c.claim = (s.caller k).claim ∧ c.ran = (s.caller k).ran ∧
      c.asked = (s.caller k).asked)
    (hran : (s.caller k).ran = true)
    (hsits : (s.caller k).pc ≠ .resting (.parking none))
    (hj : Pending s q j) (hasked : (s.caller j).asked = none)
    (hcaller : s'.caller = Function.update (Function.update s.caller k c) j
      { s.caller j with sth := false, pc := .inside })
    (hself : ∀ e : Scene K, e.taken = none → c.Ok k e)
    (htaken : ∀ k', k' ≠ j → (s.caller k).pc.takes ≠ some k')
    (hfields : s'.head = s.head ∧ s'.node = s.node ∧ s'.consumer = s.consumer ∧
      s'.consumerSth = s.consumerSth ∧ s'.broken = false)
    (hlists : s'.order = s.order ∧ s'.served = s.served ∧ s'.executed = s.executed) :
    Inv s' q (.caller j) := by
  rcases hfields with ⟨hhead, hnode, hconsumer, hsth, hbroken⟩
  rcases h.mode with ⟨hlt, hat, hparked, hset, _⟩
  rcases hj with ⟨_, hjpc, hjran, hjclaim, hlen⟩
  -- The next one has not run yet, and who hands over has.
  have hjk : j ≠ k := by
    rintro rfl
    rw [hran] at hjran
    cases hjran
  have hjcaller : s'.caller j = { s.caller j with sth := false, pc := .inside } := by
    rw [hcaller]
    exact Function.update_self ..
  have hjok := h.callers j
  unfold Caller.Ok at hjok
  rw [hjpc] at hjok
  have hfresh : (s.caller j).Fresh := by
    rcases hjok.2 with ⟨hf, _⟩ | ⟨hx, _⟩
    · exact hf
    · rw [hx] at hjran
      cases hjran
  -- Nobody's token is in the hands of a caller that is inside.
  have hnone : ∀ k', (Mode.caller j).taken s' = some k' ↔ False := by
    intro k'
    change (s'.caller j).pc.takes = _ ↔ _
    rw [hjcaller]
    exact iff_of_false (by rintro ⟨⟩) id
  have htakes : (Mode.caller j).taken s' = none := by
    cases hx : (Mode.caller j).taken s' with
    | none => rfl
    | some k' => exact ((hnone k').mp hx).elim
  -- The histories grow by nobody's entry; what every caller is at is left.
  refine h.step (fun k' => ?_) (fun k' => ?_)
    ⟨hlt, hhead.trans hat, hconsumer.trans hparked, ?_, ?_⟩ h.lock rfl hlists hbroken
  · rw [hcaller]
    refine (past_set ?_ k').trans (past_set ?_ k')
    · rw [Function.update_of_ne hjk]
      exact past_eq (by rw [hjpc]; rfl) rfl rfl rfl rfl
    · exact past_eq hclaimed hcclaimed hsame.1 hsame.2.1 hsame.2.2
  · -- First the one that lets go, with nobody's token in hand.
    rw [hcaller]
    let e : Scene K := { (Mode.caller k).scene s q with holder := none, taken := none }
    have hfirst : ∀ k', k' ≠ j → (Function.update s.caller k c k').Ok k' e := by
      intro k' hk'
      by_cases hkk : k' = k
      · rw [hkk, Function.update_self]
        exact hself e rfl
      · rw [Function.update_of_ne hkk]
        refine (h.callers k').congr ⟨fun _ => ⟨rfl, rfl⟩, ?_, ?_, Iff.rfl⟩
        · exact iff_of_false (by rintro ⟨⟩) fun hx => hkk (Option.some.inj hx).symm
        · exact iff_of_false (by rintro ⟨⟩) (htaken k' hk')
    by_cases hkj : k' = j
    · rw [hkj, Function.update_self]
      exact ⟨hfresh, rfl, hasked, rfl⟩
    · rw [Function.update_of_ne hkj]
      refine (hfirst k' hkj).congr ⟨fun _ => ⟨rfl, congrFun hnode _⟩, ?_, ?_, ?_⟩
      · exact iff_of_false (fun hx => hkj (Option.some.inj hx).symm) (by rintro ⟨⟩)
      · exact (hnone k').trans (iff_of_false id (by rintro ⟨⟩))
      · change s'.consumer.wakes = _ ↔ s.consumer.wakes = _
        rw [hconsumer]
  · rw [hsth, hjcaller, hset]
    exact iff_of_true hsits (by simp)
  · rw [hjcaller]
    refine ⟨hjclaim, ?_⟩
    rw [hlists.2.1]
    exact hlen

/-- The holder lets the lock go, and wakes the consumer thread with it. -/
theorem Inv.handBack (h : Inv s q (.caller k)) (hclaimed : (s.caller k).pc.claimed = true)
    (hcclaimed : c.pc.claimed = true)
    (hsame : c.claim = (s.caller k).claim ∧ c.ran = (s.caller k).ran ∧
      c.asked = (s.caller k).asked)
    (hran : (s.caller k).ran = true)
    (hcaller : s'.caller = Function.update s.caller k c)
    (hself : ∀ e : Scene K, e.taken = none → c.Ok k e) (htakes : (s.caller k).pc.takes = none)
    (hknows : Knows s q)
    (hfields : s'.head = s.head ∧ s'.isExecuted = s.isExecuted ∧ s'.node = s.node ∧
      s'.consumer = .top ∧ s'.consumerSth = false ∧ s'.broken = false)
    (hlists : s'.order = s.order ∧ s'.served = s.served ∧ s'.executed = s.executed) :
    Inv s' q .thread := by
  rcases hfields with ⟨hhead, hexecuted, hnode, hconsumer, hsth, hbroken⟩
  rcases h.mode with ⟨hlt, hat, hparked, _, _⟩
  -- The lock is the thread's from now on, and nobody among the callers has it.
  refine h.step (fun k' => ?_) (fun k' => ?_) ⟨hlt, hhead.trans hat, ?_, ?_⟩ h.lock rfl hlists
    hbroken
  · rw [hcaller]
    exact past_set (past_eq hclaimed hcclaimed hsame.1 hsame.2.1 hsame.2.2) k'
  · rw [hcaller]
    have htaken : Mode.thread.taken s' = none := by
      change s'.consumer.takes = none
      rw [hconsumer]
      rfl
    refine okAll_update h.callers (hself _ htaken) (fun k' hk' => ?_) k'
    refine ⟨fun _ => ⟨rfl, congrFun hnode _⟩, ?_, ?_, ?_⟩
    · exact iff_of_false (by rintro ⟨⟩) fun hx => hk' (Option.some.inj hx).symm
    · change Mode.thread.taken s' = _ ↔ (s.caller k).pc.takes = _
      rw [htaken, htakes]
    · change s'.consumer.wakes = _ ↔ s.consumer.wakes = _
      rw [hconsumer, hparked]
      exact Iff.rfl
  · rw [hsth, hconsumer]
    rfl
  · rw [hconsumer]
    change Knows s' q
    -- The thread is told of a caller that it has still to wake, if there is one.
    rcases hknows with ⟨he, hd⟩ | ⟨he, j, hj⟩
    · refine .inl ⟨hexecuted.trans he, ?_⟩
      unfold Done
      rw [hlists.2.1]
      exact hd
    · refine .inr ⟨hexecuted.trans he, j, ?_⟩
      rcases hj with ⟨hnodej, hjpc, hjran, hjclaim, hlen⟩
      have hjk : j ≠ k := by
        rintro rfl
        rw [hran] at hjran
        cases hjran
      unfold Pending
      rw [hnode, hcaller, hlists.2.1, Function.update_of_ne hjk]
      exact ⟨hnodej, hjpc, hjran, hjclaim, hlen⟩

omit [DecidableEq K] in
/-- The node of the head is that of a caller that waits for the lock, whose token is there. -/
theorem Inv.isSet_iff (h : Inv s q m) (hj : Pending s q j) (htaken : m.taken s ≠ some j) :
    s.isSet q.served = true ↔ (s.caller j).asked = none := by
  have hok := h.callers j
  unfold Caller.Ok at hok
  rw [hj.2.1] at hok
  have hsth : (s.caller j).sth = true := hok.1.mpr htaken
  unfold State.isSet
  rw [hj.1, Option.any_some, hsth, Bool.and_true, Option.isNone_iff_eq_none]

omit [DecidableEq K] in
/-- The token of a caller that is asleep is where it is looked for. -/
theorem Inv.sth (h : Inv s q m) (hj : (s.caller j).pc = .asleep) (htaken : m.taken s ≠ some j) :
    (s.caller j).sth = true := by
  have hok := h.callers j
  unfold Caller.Ok at hok
  rw [hj] at hok
  exact hok.1.mpr htaken

/-- The head moves on to a claim that is linked. -/
theorem Inv.moved (h : Inv s q (.caller k)) (hran : (s.caller k).ran = true) (hd : Done s q)
    (hnext : q.HasNext) {pc : Pc K Resp}
    (hcaller : s'.caller = Function.update s.caller k { s.caller k with pc := pc })
    (hnode : s'.node = s.node) (hserved : s'.served = s.served) :
    ∃ j, Pending s' (q.after .tryFollowHead) j := by
  rcases h.next_asleep hd hnext with ⟨j, hjpc, hjran, hjclaim, hjnode⟩
  have hjk : j ≠ k := by
    rintro rfl
    rw [hran] at hjran
    cases hjran
  have hafter : (q.after .tryFollowHead).served = q.served + 1 := by
    rw [LockQueue.after, if_pos hnext]
  refine ⟨j, ?_⟩
  unfold Pending
  rw [hafter, hnode, hcaller, hserved, Function.update_of_ne hjk, hd]
  exact ⟨hjnode, hjpc, hjran, hjclaim, rfl⟩

/-- The holder has looked for a successor. -/
theorem inv_follow (h : Inv s q (.caller k)) (hclaimed : (s.caller k).pc.claimed = true)
    (hran : (s.caller k).ran = true) (htakes : (s.caller k).pc.takes = none)
    (hsits : (s.caller k).pc ≠ .resting (.parking none)) (hd : Done s q)
    (hexecuted : s.isExecuted = true) {handing : Nat → Pc K Resp} {waking : Pc K Resp}
    (hwaking : ∀ e : Scene K, (s.caller k).Ok k e →
      ({ s.caller k with pc := waking } : Caller K Req Resp).Ok k e)
    (hhanding : ∀ i, ∀ e : Scene K, (s.caller k).Ok k e →
      ({ s.caller k with pc := handing i } : Caller K Req Resp).Ok k e)
    (hpcs : ∀ pc, pc = waking ∨ (∃ i, pc = handing i) →
      pc.claimed = true ∧ pc.takes = none ∧ pc ≠ .resting (.parking none))
    (hok : ∀ (s' : State K Req Resp) (q' : LockQueue), Knows s' q' → waking.Ok s' q'
      (s.caller k).claim)
    (hok' : ∀ (s' : State K Req Resp) (q' : LockQueue) (i : Nat), i = q'.served →
      s'.isExecuted = false → (∃ j, Pending s' q' j) → (handing i).Ok s' q' (s.caller k).claim) :
    Inv (s.follow k handing waking (q.result .tryFollowHead)) (q.after .tryFollowHead)
      (.caller k) := by
  rcases h.mode with ⟨hlt, hat, _, _, _⟩
  have hlock : (q.after .tryFollowHead).Ok := h.lock.after hlt
  -- If there is a successor it has the lock now, else the holder keeps it.
  by_cases hnext : q.HasNext
  · rcases hpcs _ (.inr ⟨q.served + 1, rfl⟩) with ⟨hc, ht, hne⟩
    have hafter : q.after .tryFollowHead = { q with served := q.served + 1 } := by
      rw [LockQueue.after, if_pos hnext]
    rw [LockQueue.result, if_pos hnext]
    refine h.advance (p := handing (q.served + 1)) rfl ⟨hclaimed, hc⟩ (hhanding _)
      ⟨htakes, ht⟩ ⟨hsits, hne⟩ ⟨rfl, rfl, rfl, rfl⟩ ⟨rfl, rfl, rfl⟩ hlock ?_ ?_ ?_
      (hok' _ _ _ ?_ rfl (h.moved hran hd hnext rfl rfl rfl))
    all_goals rw [hafter]
    · exact ⟨rfl, rfl⟩
    · exact hnext.1
    · rfl
  · rcases hpcs _ (.inl rfl) with ⟨hc, ht, hne⟩
    have hafter : q.after .tryFollowHead = q := by
      rw [LockQueue.after, if_neg hnext]
    rw [LockQueue.result, if_neg hnext, hafter]
    exact h.advance (p := waking) rfl ⟨hclaimed, hc⟩ hwaking ⟨htakes, ht⟩ ⟨hsits, hne⟩
      ⟨rfl, rfl, rfl, rfl⟩ ⟨rfl, rfl, rfl⟩ h.lock ⟨rfl, rfl⟩ hlt hat
      (hok _ _ (.inl ⟨hexecuted, hd⟩))

/-- `unlock`. -/
theorem inv_unlock (h : Inv s q m) {stage : Unlock} (hpc : (s.caller k).pc = .unlocking stage)
    {a : Answers K Resp} (ha : a.Honest fun k => (s.caller k).kept) :
    (∀ o, stage.op = some o → q.allowed o) ∧
      ∃ m', Inv (s.unlock k a ((stage.op.map q.result).getD .linked) stage)
        ((stage.op.map q.after).getD q) m' := by
  cases h.holds (k := k) (by rw [hpc]; trivial)
  rcases h.mode with ⟨hlt, hat, hparked, hset, hok⟩
  have hself := h.callers k
  unfold Caller.Ok at hself
  rw [hpc] at hset hok hself
  -- The consumer thread is parked while a caller has the lock.
  have hsth : s.consumerSth = true := hset.mpr (by simp)
  have hclaimed : (s.caller k).pc.claimed = true := by
    rw [hpc]
    rfl
  have htakes : (s.caller k).pc.takes = none := by
    rw [hpc]
    rfl
  have hsits : (s.caller k).pc ≠ .resting (.parking none) := by
    rw [hpc]
    simp
  have hkeep : ∀ (stage' : Unlock) (e : Scene K), (s.caller k).Ok k e →
      ({ s.caller k with pc := .unlocking stage' } : Caller K Req Resp).Ok k e := by
    intro stage' e he
    unfold Caller.Ok at he
    rw [hpc] at he
    exact he
  -- A caller that returns has its answer, and nothing else is asked of it.
  have hreturn : ∀ e : Scene K,
      ({ s.caller k with pc := .returning } : Caller K Req Resp).Ok k e :=
    fun e => ⟨hself.1, hself.2.1⟩
  -- Most stages only go on to the next, with the lock.
  have hstay : ∀ (s' : State K Req Resp) (stage' : Unlock),
      s'.caller = Function.update s.caller k { s.caller k with pc := .unlocking stage' } →
      s'.node = s.node ∧ s'.consumer = s.consumer ∧ s'.consumerSth = s.consumerSth ∧
        s'.broken = s.broken →
      s'.order = s.order ∧ s'.served = s.served ∧ s'.executed = s.executed →
      s'.head = s.head → stage'.Ok s' q → Inv s' q (.caller k) := by
    intro s' stage' hcaller hfields hlists hhead hstage
    exact h.advance hcaller ⟨hclaimed, rfl⟩ (hkeep stage') ⟨htakes, rfl⟩ ⟨hsits, by simp⟩ hfields
      hlists h.lock ⟨rfl, rfl⟩ hlt (hhead.trans hat) hstage
  -- The holder unlocks where nobody is left, and hands the lock over otherwise.
  cases stage with
  | asking =>
      refine ⟨by rintro _ ⟨⟩, .caller k, ?_⟩
      unfold State.unlock
      cases hactive : a.active with
      | true => exact hstay _ .following rfl ⟨rfl, rfl, rfl, rfl⟩ ⟨rfl, rfl, rfl⟩ rfl ⟨hok, rfl⟩
      | false =>
          refine hstay _ .releasing rfl ⟨rfl, rfl, rfl, rfl⟩ ⟨rfl, rfl, rfl⟩ rfl
            ⟨hok, rfl, fun k' => ?_⟩
          have hquiet := ha.idle hactive k'
          change (Function.update s.caller k _ k').kept = _
          by_cases hkk : k' = k
          · rw [hkk, Function.update_self]
            rw [hkk] at hquiet
            exact hquiet
          · rw [Function.update_of_ne hkk]
            exact hquiet
  | releasing =>
      refine ⟨by rintro _ ⟨⟩; exact hlt, ?_⟩
      rcases hok with ⟨hd, hexecuted, hquiet⟩
      change ∃ m', Inv (s.setPc k _) (q.after .tryUnlock) m'
      have hquiet' : ∀ pc : Pc K Resp, Quiet (s.setPc k pc) := by
        intro pc k'
        change (Function.update s.caller k _ k').kept = _
        by_cases hkk : k' = k
        · rw [hkk, Function.update_self]
          exact hquiet k
        · rw [Function.update_of_ne hkk]
          exact hquiet k'
      by_cases hlast : q.served + 1 = q.claimed
      · -- Nobody is behind: the lock is free.
        have hafter : q.after .tryUnlock = { q with served := q.claimed } := by
          rw [LockQueue.after, if_pos hlast]
        have hresult : q.result .tryUnlock = .unlocked true := by
          rw [LockQueue.result, beq_iff_eq.mpr hlast]
        rw [if_pos (by exact hresult), hafter]
        have hlock := h.lock.after (o := .tryUnlock) hlt
        rw [hafter] at hlock
        refine ⟨.free, h.step (past_set (past_eq hclaimed rfl rfl rfl rfl))
          (okAll_update h.callers (hreturn _) fun k' hk' => ?_) ⟨rfl, ?_, hparked, hsth,
            hquiet' _⟩ hlock rfl ⟨rfl, rfl, rfl⟩ h.intact⟩
        · refine ⟨fun _ => ⟨rfl, rfl⟩, ?_, ?_, Iff.rfl⟩
          · exact iff_of_false (by rintro ⟨⟩) fun hx => hk' (Option.some.inj hx).symm
          · change none = _ ↔ (s.caller k).pc.takes = _
            rw [htakes]
        · exact (congrArg (· + 1) hd).trans hlast
      · have hafter : q.after .tryUnlock = q := by
          rw [LockQueue.after, if_neg hlast]
        have hresult : q.result .tryUnlock = .unlocked false := by
          rw [LockQueue.result, beq_false_of_ne hlast]
        rw [if_neg (by rw [show ((Unlock.op .releasing).map q.result).getD .linked =
          q.result .tryUnlock from rfl, hresult]; simp), hafter]
        exact ⟨.caller k, hstay _ .following rfl ⟨rfl, rfl, rfl, rfl⟩ ⟨rfl, rfl, rfl⟩ rfl
          ⟨hd, hexecuted⟩⟩
  | following =>
      refine ⟨by rintro _ ⟨⟩; exact hlt, .caller k, ?_⟩
      refine inv_follow h hclaimed hself.1.1 htakes hsits hok.1 hok.2 (hkeep _)
        (fun i => hkeep (.handing i)) ?_ (fun _ _ hx => hx) fun _ _ _ hi he hj => ⟨hi, he, hj⟩
      rintro _ (rfl | ⟨i, rfl⟩) <;> exact ⟨rfl, rfl, by simp⟩
  | handing i =>
      refine ⟨by rintro _ ⟨⟩, .caller k, ?_⟩
      rcases hok with ⟨rfl, hexecuted, j, hj⟩
      have hjk : j ≠ k := by
        rintro rfl
        exact absurd (hpc.symm.trans hj.2.1) (by simp)
      have hj' : ∀ pc : Pc K Resp, Pending (s.setPc k pc) q j ∧
          ((s.setPc k pc).caller j).asked = (s.caller j).asked := by
        intro pc
        have hcaller : (s.setPc k pc).caller j = s.caller j := Function.update_of_ne hjk ..
        refine ⟨?_, congrArg Caller.asked hcaller⟩
        unfold Pending
        rw [hcaller]
        exact hj
      have hiff := h.isSet_iff hj (by
        change (s.caller k).pc.takes ≠ _
        rw [htakes]
        rintro ⟨⟩)
      unfold State.unlock
      dsimp only
      by_cases hx : s.isSet q.served = true
      · rw [if_pos hx]
        exact hstay _ (.passing q.served) rfl ⟨rfl, rfl, rfl, rfl⟩ ⟨rfl, rfl, rfl⟩ rfl
          ⟨rfl, j, (hj' _).1, (hj' _).2.trans (hiff.mp hx)⟩
      · rw [if_neg hx]
        exact hstay _ .waking rfl ⟨rfl, rfl, rfl, rfl⟩ ⟨rfl, rfl, rfl⟩ rfl
          (.inr ⟨hexecuted, j, (hj' _).1⟩)
  | passing i =>
      refine ⟨by rintro _ ⟨⟩, ?_⟩
      rcases hok with ⟨rfl, j, hj, hasked⟩
      have htaken : (Mode.caller k).taken s ≠ some j := by
        change (s.caller k).pc.takes ≠ _
        rw [htakes]
        rintro ⟨⟩
      have hjsth := h.sth hj.2.1 htaken
      have hjk : j ≠ k := by
        rintro rfl
        exact absurd (hpc.symm.trans hj.2.1) (by simp)
      unfold State.unlock
      simp only [hj.1]
      refine ⟨.caller j, h.handOver (c := { s.caller k with pc := .returning }) hclaimed rfl
        ⟨rfl, rfl, rfl⟩ hself.1.1 hsits hj hasked ?_ (fun e _ => hreturn e) ?_
        ⟨rfl, rfl, rfl, rfl, ?_⟩ ⟨rfl, rfl, rfl⟩⟩
      · simp only [State.notify, State.take, State.wake, State.setPc, State.set,
          Function.update_self, Function.update_idem, hasked, if_true,
          Function.update_of_ne hjk.symm]
        exact Function.update_comm hjk ..
      · rw [htakes]
        rintro _ _ ⟨⟩
      · change (s.broken || !(s.caller j).sth) = false
        rw [h.intact, hjsth]
        rfl
  | waking =>
      refine ⟨by rintro _ ⟨⟩, .thread, ?_⟩
      refine h.handBack (c := { s.caller k with pc := .returning }) hclaimed rfl ⟨rfl, rfl, rfl⟩
        hself.1.1 rfl (fun e _ => hreturn e) htakes hok ⟨rfl, rfl, rfl, rfl, rfl, ?_⟩
        ⟨rfl, rfl, rfl⟩
      change (s.broken || !s.consumerSth) = false
      rw [h.intact, hsth]
      rfl

/-- `unlock_and_wait`. -/
theorem inv_rest (h : Inv s q m) {stage : Rest K} (hpc : (s.caller k).pc = .resting stage)
    {a : Answers K Resp} (ha : a.Honest fun k => (s.caller k).kept) :
    (∀ o, stage.op = some o → q.allowed o) ∧
      ∃ m', Inv (s.rest k a ((stage.op.map q.result).getD .linked) stage)
        ((stage.op.map q.after).getD q) m' := by
  cases h.holds (k := k) (by rw [hpc]; trivial)
  rcases h.mode with ⟨hlt, hat, hparked, hset, hok⟩
  have hself := h.callers k
  unfold Caller.Ok at hself
  rw [hpc] at hset hok hself
  rcases hself with ⟨hran, hasked, hvalue, hdeferred, hksth, _⟩
  have hclaimed : (s.caller k).pc.claimed = true := by
    rw [hpc]
    rfl
  have hkeep : ∀ (stage' : Rest K) (e : Scene K), (s.caller k).Ok k e →
      ({ s.caller k with pc := .resting stage' } : Caller K Req Resp).Ok k e := by
    intro stage' e he
    unfold Caller.Ok at he
    rw [hpc] at he
    exact he
  -- A caller that goes to sleep has been answered, or will be by who has its token.
  have hsleep : ∀ e : Scene K, e.taken = none →
      ({ s.caller k with sth := true, pc := .asleep } : Caller K Req Resp).Ok k e := by
    intro e he
    have hne : e.taken ≠ some k := by
      rw [he]
      rintro ⟨⟩
    exact ⟨iff_of_true rfl hne, .inr ⟨hran, hasked, hvalue, hne, .inl hdeferred⟩⟩
  -- Most stages only go on to another, with nothing else changed.
  have hstay : ∀ (s' : State K Req Resp) (stage' : Rest K),
      (s.caller k).pc.takes = none ∧ (Pc.resting stage' : Pc K Resp).takes = none →
      (s.caller k).pc ≠ .resting (.parking none) ∧ stage' ≠ .parking none →
      s'.caller = Function.update s.caller k { s.caller k with pc := .resting stage' } →
      s'.node = s.node ∧ s'.consumer = s.consumer ∧ s'.consumerSth = s.consumerSth ∧
        s'.broken = s.broken →
      s'.order = s.order ∧ s'.served = s.served ∧ s'.executed = s.executed →
      s'.head = s.head → stage'.Ok s' q → Inv s' q (.caller k) := by
    intro s' stage' htakes hsits hcaller hfields hlists hhead hstage
    exact h.advance hcaller ⟨hclaimed, rfl⟩ (hkeep stage') htakes
      ⟨hsits.1, fun hx => hsits.2 (Pc.resting.inj hx)⟩ hfields hlists h.lock ⟨rfl, rfl⟩ hlt
      (hhead.trans hat) hstage
  -- The two threads that a token is taken from are not this one.
  have hne : ∀ j, Pending s q j → j ≠ k := by
    rintro j hj rfl
    exact absurd (hpc.symm.trans hj.2.1) (by simp)
  cases stage with
  | asking =>
      refine ⟨by rintro _ ⟨⟩, .caller k, ?_⟩
      -- A deferred call keeps the delegator active, so the holder goes on.
      have hactive : a.active = true := by
        refine ha.1 ⟨k, fun hx => ?_⟩
        rcases hdeferred with hd | ⟨hd, _⟩ <;> exact absurd (hd.symm.trans hx) (by simp)
      unfold State.rest
      rw [if_pos hactive]
      exact hstay _ .following ⟨by rw [hpc]; rfl, rfl⟩ ⟨by rw [hpc]; simp, by simp⟩ rfl
        ⟨rfl, rfl, rfl, rfl⟩ ⟨rfl, rfl, rfl⟩ rfl ⟨hok, rfl⟩
  | suspending | releasing | cancelling => exact hok.elim
  | following =>
      refine ⟨by rintro _ ⟨⟩; exact hlt, .caller k, ?_⟩
      refine inv_follow h hclaimed hran (by rw [hpc]; rfl) (by rw [hpc]; simp) hok.1 hok.2
        (hkeep _) (fun i => hkeep (.handing i)) ?_ (fun _ _ hx => hx)
        fun _ _ _ hi he hj => ⟨hi, he, hj⟩
      rintro _ (rfl | ⟨i, rfl⟩) <;> exact ⟨rfl, rfl, by simp⟩
  | handing i =>
      refine ⟨by rintro _ ⟨⟩, .caller k, ?_⟩
      rcases hok with ⟨rfl, hexecuted, j, hj⟩
      have hj' : ∀ pc : Pc K Resp, Pending (s.setPc k pc) q j ∧
          ((s.setPc k pc).caller j).asked = (s.caller j).asked := by
        intro pc
        have hcaller : (s.setPc k pc).caller j = s.caller j :=
          Function.update_of_ne (hne j hj) ..
        refine ⟨?_, congrArg Caller.asked hcaller⟩
        unfold Pending
        rw [hcaller]
        exact hj
      have hiff := h.isSet_iff hj (by
        change (s.caller k).pc.takes ≠ _
        rw [hpc]
        rintro ⟨⟩)
      unfold State.rest
      dsimp only
      -- The successor's wait slot is set or not yet, and the holder passes the lock or waits.
      by_cases hx : s.isSet q.served = true
      · rw [if_pos hx]
        exact hstay _ (.passing q.served) ⟨by rw [hpc]; rfl, rfl⟩ ⟨by rw [hpc]; simp, by simp⟩
          rfl ⟨rfl, rfl, rfl, rfl⟩ ⟨rfl, rfl, rfl⟩ rfl
          ⟨rfl, j, (hj' _).1, (hj' _).2.trans (hiff.mp hx)⟩
      · rw [if_neg hx]
        exact hstay _ .waking ⟨by rw [hpc]; rfl, rfl⟩ ⟨by rw [hpc]; simp, by simp⟩ rfl
          ⟨rfl, rfl, rfl, rfl⟩ ⟨rfl, rfl, rfl⟩ rfl (.inr ⟨hexecuted, j, (hj' _).1⟩)
  | passing i =>
      -- The token of the caller that is next is taken, and its own one is still out.
      refine ⟨by rintro _ ⟨⟩, .caller k, ?_⟩
      rcases hok with ⟨rfl, j, hj, hjasked⟩
      have htaken : (Mode.caller k).taken s ≠ some j := by
        change (s.caller k).pc.takes ≠ _
        rw [hpc]
        rintro ⟨⟩
      have hjsth := h.sth hj.2.1 htaken
      have hjk := hne j hj
      unfold State.rest
      simp only [hj.1]
      set s' := (s.take j).setPc k (.resting (.parking (some j))) with hs'
      have hcaller : s'.caller = Function.update
          (Function.update s.caller j { s.caller j with sth := false }) k
          { s.caller k with pc := .resting (.parking (some j)) } := by
        rw [hs']
        simp only [State.setPc, State.take, State.set, Function.update_of_ne hjk.symm]
      have hk : s'.caller k = { s.caller k with pc := .resting (.parking (some j)) } := by
        rw [hcaller]
        exact Function.update_self ..
      have hj' : s'.caller j = { s.caller j with sth := false } := by
        rw [hcaller, Function.update_of_ne hjk, Function.update_self]
      have htaken' : (Mode.caller k).taken s' = some j := by
        change (s'.caller k).pc.takes = _
        rw [hk]
        rfl
      refine h.step (fun k' => ?_) (fun k' => ?_) ⟨hlt, hat, hparked, ?_, ?_⟩ h.lock rfl
        ⟨rfl, rfl, rfl⟩ ?_
      · rw [hcaller]
        refine (past_set ?_ k').trans (past_set ?_ k')
        · rw [Function.update_of_ne hjk.symm]
          exact past_eq hclaimed rfl rfl rfl rfl
        · rfl
      · by_cases hkk : k' = k
        · rw [hkk, hk]
          exact ⟨hran, hasked, hvalue, hdeferred, hksth, rfl⟩
        · by_cases hkj : k' = j
          · have hjok := h.callers j
            unfold Caller.Ok at hjok
            rw [hj.2.1] at hjok
            rw [hkj, hj']
            unfold Caller.Ok
            dsimp only
            rw [hj.2.1]
            refine ⟨iff_of_false (by simp) fun hx => hx htaken', .inl ?_⟩
            rcases hjok.2 with hx | ⟨hx, _⟩
            · exact hx
            · rw [hj.2.2.1] at hx
              cases hx
          · rw [hcaller, Function.update_of_ne hkk, Function.update_of_ne hkj]
            refine (h.callers k').congr ⟨fun _ => ⟨rfl, rfl⟩, Iff.rfl, ?_, Iff.rfl⟩
            change (Mode.caller k).taken s' = _ ↔ (s.caller k).pc.takes = _
            rw [htaken', hpc]
            exact iff_of_false (fun hx => hkj (Option.some.inj hx).symm) (by rintro ⟨⟩)
      · rw [hk]
        exact iff_of_true (hset.mpr (by simp)) (by simp)
      · rw [hk]
        refine ⟨?_, ?_⟩
        · unfold Pending
          rw [hj']
          exact hj
        · rw [hj']
          exact hjasked
      · change (s.broken || !(s.caller j).sth) = false
        rw [h.intact, hjsth]
        rfl
  | waking =>
      refine ⟨by rintro _ ⟨⟩, .caller k, ?_⟩
      -- There is no successor, so the consumer thread is parked and gets the lock.
      have hsth : s.consumerSth = true := hset.mpr (by simp)
      unfold State.rest
      dsimp only
      set s' := s.takeConsumer.setPc k (.resting (.parking none)) with hs'
      have hcaller : s'.caller = Function.update s.caller k
        { s.caller k with pc := .resting (.parking none) } := rfl
      have hk : s'.caller k = { s.caller k with pc := .resting (.parking none) } :=
        Function.update_self ..
      refine h.step (past_set (past_eq hclaimed rfl rfl rfl rfl))
        (okAll_update h.callers ⟨hran, hasked, hvalue, hdeferred, hksth, rfl⟩ fun k' hk' => ?_)
        ⟨hlt, hat, hparked, ?_, ?_⟩ h.lock rfl ⟨rfl, rfl, rfl⟩ ?_
      · refine ⟨fun _ => ⟨rfl, rfl⟩, Iff.rfl, ?_, Iff.rfl⟩
        change (s'.caller k).pc.takes = _ ↔ (s.caller k).pc.takes = _
        rw [hk, hpc]
        exact Iff.rfl
      · rw [hk]
        exact iff_of_false (by simp [hs', State.takeConsumer, State.setPc, State.set]) (by simp)
      · rw [hk]
        change Knows s' q
        rcases hok with hd | ⟨he, j, hj⟩
        · exact .inl hd
        · refine .inr ⟨he, j, ?_⟩
          unfold Pending
          rw [hcaller, Function.update_of_ne (hne j hj)]
          exact hj
      · change (s.broken || !s.consumerSth) = false
        rw [h.intact, hsth]
        rfl
  | parking next =>
      refine ⟨by rintro _ ⟨⟩, ?_⟩
      -- The token goes to the caller that is next, or to the consumer thread.
      cases next with
      | none =>
          have hsth : s.consumerSth = false := by
            rw [← Bool.not_eq_true, hset]
            exact fun hx => hx rfl
          exact ⟨.thread, h.handBack (c := { s.caller k with sth := true, pc := .asleep }) hclaimed
            rfl ⟨rfl, rfl, rfl⟩ hran rfl hsleep (by rw [hpc]; rfl) hok
            ⟨rfl, rfl, rfl, rfl, hsth, h.intact⟩ ⟨rfl, rfl, rfl⟩⟩
      | some j =>
          rcases hok with ⟨hj, hjasked⟩
          have hjk := hne j hj
          have hjok := h.callers j
          unfold Caller.Ok at hjok
          rw [hj.2.1] at hjok
          have hjsth : (s.caller j).sth = false := by
            rw [← Bool.not_eq_true, hjok.1]
            refine fun hx => hx ?_
            change (s.caller k).pc.takes = _
            rw [hpc]
            rfl
          refine ⟨.caller j, h.handOver (c := { s.caller k with sth := true, pc := .asleep })
            hclaimed rfl ⟨rfl, rfl, rfl⟩ hran (by rw [hpc]; simp) hj hjasked ?_ hsleep
            (fun k' hk' hx => ?_) ⟨rfl, rfl, rfl, rfl, h.intact⟩ ⟨rfl, rfl, rfl⟩⟩
          · simp only [State.rest, State.wake, State.setPc, State.set,
              Function.update_of_ne hjk, hjasked, if_true, hjsth]
          · rw [hpc] at hx
            exact hk' (Option.some.inj hx).symm

/-- A call that the consumer has is completed. -/
theorem inv_complete (h : Inv s q m) (hkept : (s.caller k).kept = .deferred) (v : Resp) :
    Inv (s.set k { s.caller k with out := some v, given := some v, kept := .completed }) q m := by
  have hok := h.callers k
  have hnew : ({ s.caller k with out := some v, given := some v, kept := .completed } :
      Caller K Req Resp).Deferred :=
    .inr ⟨rfl, by simp, rfl⟩
  -- A deferred call is one of a caller with a claim.
  have hclaimed : (s.caller k).pc.claimed = true := by
    unfold Caller.Ok at hok
    -- The caller sleeps, or is the holder that rests.
    cases hpc : (s.caller k).pc <;> rw [hpc] at hok
    case idle | starting => exact absurd (hkept.symm.trans hok.1.2.1) (by simp)
    all_goals rfl
  have hk : (s.set k { s.caller k with out := some v, given := some v, kept := .completed }).caller
      k = { s.caller k with out := some v, given := some v, kept := .completed } :=
    Function.update_self ..
  have hother : ∀ k', k' ≠ k → (s.set k
      { s.caller k with out := some v, given := some v, kept := .completed }).caller k' =
        s.caller k' := fun k' hk' => Function.update_of_ne hk' ..
  have htaken : m.taken (s.set k
      { s.caller k with out := some v, given := some v, kept := .completed }) = m.taken s := by
    cases m with
    | free | thread => rfl
    | caller j =>
        change ((s.set k _).caller j).pc.takes = (s.caller j).pc.takes
        by_cases hjk : j = k
        · rw [hjk, hk]
        · rw [hother j hjk]
  refine h.step (past_set (past_eq hclaimed hclaimed rfl rfl rfl))
    (okAll_update h.callers ?_ fun k' _ => ⟨fun _ => ⟨rfl, rfl⟩, Iff.rfl, ?_, Iff.rfl⟩)
    (h.mode.keep ⟨rfl, rfl, rfl, fun _ => id, fun k' _ => ?_, fun k' hk' => ?_⟩ rfl rfl rfl
      (Nat.le_refl _) fun _ => rfl) h.lock rfl ⟨rfl, rfl, rfl⟩ h.intact
  · refine Caller.Ok.congr (e := m.scene s q) ?_ ⟨fun _ => ⟨rfl, rfl⟩, Iff.rfl, ?_, Iff.rfl⟩
    · unfold Caller.Ok at hok ⊢
      dsimp only
      cases hpc : (s.caller k).pc <;> rw [hpc] at hok
      case asleep =>
        rcases hok with ⟨hsth, hx | ⟨hran, hasked, hvalue, hne, _⟩⟩
        · exact absurd (hkept.symm.trans hx.1.2.1) (by simp)
        · exact ⟨hsth, .inr ⟨hran, hasked, hvalue, hne, .inl hnew⟩⟩
      case resting =>
        rcases hok with ⟨hran, hasked, hvalue, _, hrest⟩
        exact ⟨hran, hasked, hvalue, hnew, hrest⟩
      all_goals exact absurd (hkept.symm.trans hok.1.2.1) (by simp)
    · change m.taken _ = _ ↔ m.taken s = _
      rw [htaken]
  · change m.taken _ = _ ↔ m.taken s = _
    rw [htaken]
  · by_cases hkk : k' = k
    · rw [hkk, hk]
      exact ⟨rfl, rfl, rfl, rfl⟩
    · rw [hother k' hkk]
      exact ⟨rfl, rfl, rfl, rfl⟩
  · have hkk : k' ≠ k := by
      rintro rfl
      exact absurd (hkept.symm.trans hk') (by simp)
    rw [hother k' hkk]
    exact ⟨hk', rfl, rfl⟩

end Delegator

end Delegate

end Cmpth

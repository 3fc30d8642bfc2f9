import Cmpth.Delegate.DelegatorSteps

/-!
# The Consumer Thread of a Delegator

Every step of the consumer thread keeps the invariant of `Delegator`, over the abstract lock.

Unless it is in its slot, the consumer thread has the lock (`Inv.thread`). A step either only
moves it on (`Inv.turns`), or does something to one caller that is asleep (`Inv.serves`): it runs
its request, stores its response, takes its token, has it handed back or wakes it.

## Theorems

* `Inv.thread`: The consumer thread has the lock unless it is parked.
* `inv_run`, `inv_finish`, `inv_swap`, `inv_park`, `inv_progress`, `inv_wake`: What it does to a
  caller.
* `inv_serve`: Any step of it.
* `Inv.sleeper`, `Inv.slept`, `Inv.waits`: The callers that the consumer thread deals with.
-/

namespace Cmpth

namespace Delegate

namespace Delegator

variable {K Req Resp : Type*} {s s' : State K Req Resp} {q q' : LockQueue} {m n : Mode K}
  {k j : K} {c : Caller K Req Resp}

theorem Inv.thread (h : Inv s q m) (hpc : s.consumer ≠ .parked) : m = .thread := by
  cases m with
  | free => exact absurd h.mode.2.2.1 hpc
  | caller k => exact absurd h.mode.2.2.1 hpc
  | thread => rfl

/-- The consumer thread goes on, and no caller does. -/
theorem Inv.turns (h : Inv s q .thread) {p : Consumer K Resp} (hcaller : s'.caller = s.caller)
    (hconsumer : s'.consumer = p) (htakes : s.consumer.takes = none ∧ p.takes = none)
    (hwakes : p.wakes = s.consumer.wakes)
    (hfields : s'.node = s.node ∧ s'.consumerSth = p.sits ∧ s'.broken = false)
    (hlists : s'.order = s.order ∧ s'.served = s.served ∧ s'.executed = s.executed)
    (hlock : q'.Ok) (hq : q'.linked = q.linked ∧ q'.claimed = q.claimed)
    (hlt : q'.served < q'.claimed) (hhead : s'.head = q'.served) (hok : p.Ok s' q') :
    Inv s' q' .thread := by
  -- The callers are as they were; whom the thread takes and wakes is as before.
  refine h.step (fun k => by rw [hcaller]) (fun k => ?_) ⟨hlt, hhead, ?_, ?_⟩ hlock hq.2 hlists
    hfields.2.2
  · rw [hcaller]
    refine (h.callers k).congr ⟨fun _ => ⟨congrFun hq.1 _, congrFun hfields.1 _⟩, Iff.rfl, ?_, ?_⟩
    · change s'.consumer.takes = _ ↔ s.consumer.takes = _
      rw [hconsumer, htakes.1, htakes.2]
    · change s'.consumer.wakes = _ ↔ s.consumer.wakes = _
      rw [hconsumer, hwakes]
  · rw [hconsumer]
    exact hfields.2.1
  · rw [hconsumer]
    exact hok

variable [DecidableEq K]

/-- The consumer thread goes on, and does something to a caller that is asleep. -/
theorem Inv.serves (h : Inv s q .thread) {p : Consumer K Resp}
    (hcaller : s'.caller = Function.update s.caller j c) (hpast : c.past = (s.caller j).past)
    (hself : ∀ e : Scene K, e.linked = q.linked → e.node = s.node → e.taken = n.taken s' →
      e.wakes = p.wakes → e.holder = n.holder → c.Ok j e)
    (hconsumer : s'.consumer = p) (hholder : ∀ k', k' ≠ j → n.holder ≠ some k')
    (htaken : ∀ k', k' ≠ j → (n.taken s' = some k' ↔ s.consumer.takes = some k'))
    (hwakes : ∀ k', k' ≠ j → (p.wakes = some k' ↔ s.consumer.wakes = some k'))
    (hnode : s'.node = s.node) (hbroken : s'.broken = false)
    (hlists : s'.order = s.order ∧ s'.served = s.served ∧ s'.executed = s.executed)
    (hmode : n.Ok s' q) : Inv s' q n := by
  refine h.step (fun k' => ?_) (fun k' => ?_) hmode h.lock rfl hlists hbroken
  · rw [hcaller]
    exact past_set hpast k'
  · rw [hcaller]
    have hj : c.Ok j (n.scene s' q) :=
      hself _ rfl hnode rfl (congrArg Consumer.wakes hconsumer) rfl
    refine okAll_update h.callers hj
      (fun k' hk' => ⟨fun _ => ⟨rfl, congrFun hnode _⟩, ?_, htaken k' hk', ?_⟩) k'
    · -- No caller has the lock while the thread does.
      exact iff_of_false (hholder k' hk') (by rintro ⟨⟩)
    · change s'.consumer.wakes = _ ↔ s.consumer.wakes = _
      rw [hconsumer]
      exact hwakes k' hk'

omit [DecidableEq K] in
/-- The token of a caller that is asleep is there, unless the consumer thread has just taken it. -/
theorem Inv.sleeper (h : Inv s q .thread) (hj : (s.caller j).pc = .asleep)
    (htakes : s.consumer.takes = none) :
    (s.caller j).pc.claimed = true ∧ (s.caller j).sth = true := by
  refine ⟨by rw [hj]; rfl, h.sth hj ?_⟩
  change s.consumer.takes ≠ _
  rw [htakes]
  rintro ⟨⟩

omit [DecidableEq K] in
/-- A caller that is asleep and has had its turn. -/
theorem Inv.slept (h : Inv s q .thread) (hpc : (s.caller j).pc = .asleep)
    (hran : (s.caller j).ran = true) :
    (s.caller j).asked ≠ none ∧ (s.caller j).value = none ∧
      ((s.caller j).Deferred ∨ (s.caller j).kept = .nothing ∧ s.consumer.wakes = some j) := by
  have hok := h.callers j
  unfold Caller.Ok at hok
  rw [hpc] at hok
  rcases hok.2 with ⟨⟨hx, _⟩, _⟩ | ⟨_, hasked, hvalue, _, hrest⟩
  · rw [hx] at hran
    cases hran
  · exact ⟨hasked, hvalue, hrest⟩

omit [DecidableEq K] in
/-- The caller at the head, whose turn it is. -/
theorem Inv.waits (h : Inv s q m) (hj : Pending s q j) :
    (s.caller j).Fresh ∧ q.linked (s.caller j).claim = true ∧
      s.node (s.caller j).claim = some j := by
  have hok := h.callers j
  unfold Caller.Ok at hok
  rw [hj.2.1] at hok
  rcases hok.2 with hx | ⟨hx, _⟩
  · exact hx
  · rw [hj.2.2.1] at hx
    cases hx

/-- The consumer thread runs the request at the head. -/
theorem inv_run (h : Inv s q .thread) (hpc : s.consumer = .executing) (hj : Pending s q j)
    (hasked : (s.caller j).asked ≠ none) (answer : Option Resp) :
    Inv (s.run j answer) q .thread := by
  rcases h.mode with ⟨hlt, hat, hset, _⟩
  rcases h.waits hj with ⟨⟨hran, hkept, hvalue⟩, _, _⟩
  rcases hj with ⟨hnode, hjpc, _, hclaim, hlen⟩
  rcases h.sleeper hjpc (by rw [hpc]; rfl) with ⟨hclaimed, hsth⟩
  -- The caller has had its turn, and stays asleep.
  let c : Caller K Req Resp :=
    { s.caller j with
      ran := true
      given := answer
      kept := if answer = none then .deferred else .nothing }
  have hcaller : (s.run j answer).caller = Function.update s.caller j c := rfl
  have hself : (s.run j answer).caller j = c := Function.update_self ..
  have hdone : Done (s.run j answer) q := by
    unfold Done
    change (s.served ++ [j]).length = q.served
    rw [List.length_append, List.length_singleton]
    exact hlen
  have htakes : (s.run j answer).consumer.takes = none := by
    cases answer <;> rfl
  refine ⟨h.lock, ?_, ?_, ⟨hlt, hat, ?_, ?_⟩, h.intact⟩
  · have hpast : (s.run j answer).past = Function.update s.past j
        (some ⟨(s.caller j).claim, true, (s.caller j).asked⟩) := by
      change (fun k' => ((s.run j answer).caller k').past) = _
      rw [hcaller, past_update, past_claimed (c := c) hclaimed]
      rfl
    -- It is the next one of the order.
    rw [hpast]
    exact h.history.turn (State.past_claimed hclaimed) (hclaim.trans hlen.symm)
  · rw [hcaller]
    refine okAll_update h.callers ?_ fun k' hk' => ⟨fun _ => ⟨rfl, rfl⟩, Iff.rfl, ?_, ?_⟩
    · have hne : Mode.thread.taken (s.run j answer) ≠ some j := by
        change (s.run j answer).consumer.takes ≠ _
        rw [htakes]
        rintro ⟨⟩
      unfold Caller.Ok
      dsimp only [c]
      rw [hjpc]
      refine ⟨iff_of_true hsth hne, .inr ⟨rfl, hasked, hvalue, hne, ?_⟩⟩
      cases answer with
      | none => exact .inl (.inl rfl)
      | some v => exact .inr ⟨rfl, rfl⟩
    · change (s.run j answer).consumer.takes = _ ↔ s.consumer.takes = _
      rw [htakes, hpc]
      exact Iff.rfl
    · change (s.run j answer).consumer.wakes = _ ↔ s.consumer.wakes = _
      rw [hpc]
      cases answer with
      | none => exact Iff.rfl
      | some v => exact iff_of_false (fun hx => hk' (Option.some.inj hx).symm) (by rintro ⟨⟩)
  · rw [hpc] at hset
    change s.consumerSth = _
    rw [hset]
    cases answer <;> rfl
  · cases answer with
    | none => exact .inl ⟨rfl, hdone⟩
    | some v =>
        refine ⟨hdone, rfl, ⟨?_, ?_, ?_⟩, ?_⟩ <;> rw [hself]
        · exact hjpc
        · rfl

/-- The response of a call that was ready is stored. -/
theorem inv_finish (h : Inv s q .thread) {v : Resp} (hpc : s.consumer = .finishing k v) :
    Inv { s.set k { s.caller k with out := some v } with consumer := .waking k false } q
      .thread := by
  rcases h.mode with ⟨hlt, hat, hset, hok⟩
  rw [hpc] at hok hset
  rcases hok with ⟨hd, he, ⟨hkpc, hran, hkept⟩, hgiven⟩
  -- The one whose response is stored sleeps, and is woken by the next access.
  rcases h.slept hkpc hran with ⟨hasked, hvalue, _⟩
  rcases h.sleeper hkpc (by rw [hpc]; rfl) with ⟨hclaimed, hsth⟩
  refine h.serves (p := .waking k false) rfl (past_eq hclaimed hclaimed rfl rfl rfl)
    (fun e _ _ ht hw _ => ?_) rfl (fun _ _ => by rintro ⟨⟩) (fun _ _ => ?_) (fun _ _ => ?_)
    rfl h.intact ⟨rfl, rfl, rfl⟩ ⟨hlt, hat, hset, ?_⟩
  · have hne : e.taken ≠ some k := by
      rw [ht]
      rintro ⟨⟩
    unfold Caller.Ok
    dsimp only
    rw [hkpc]
    exact ⟨iff_of_true hsth hne, .inr ⟨hran, hasked, hvalue, hne, .inr ⟨hkept, hw⟩⟩⟩
  · rw [hpc]
    exact Iff.rfl
  · rw [hpc]
    exact Iff.rfl
  · refine ⟨hd, he, ?_, by rintro ⟨⟩⟩
    unfold Answered State.set
    dsimp only
    rw [Function.update_self, hgiven]
    exact ⟨⟨hkpc, hran, hkept⟩, by simp, rfl⟩

/-- `consumer_sth.swap`, up to the token of the caller that is next. -/
theorem inv_swap (h : Inv s q .thread) (hpc : s.consumer = .swapping) (hj : Pending s q j)
    (hasked : (s.caller j).asked = none) :
    Inv { s.take j with consumer := .parking j } q .thread := by
  rcases h.mode with ⟨hlt, hat, hset, _⟩
  have hw := h.waits hj
  have hjpc := hj.2.1
  rcases h.sleeper hjpc (by rw [hpc]; rfl) with ⟨hclaimed, hsth⟩
  rw [hpc] at hset
  -- The caller is out of its slot, and with the consumer thread.
  refine h.serves (c := { s.caller j with sth := false }) (p := .parking j) rfl
    (past_eq hclaimed hclaimed rfl rfl rfl) (fun e hl hn ht _ _ => ?_) rfl
    (fun _ _ => by rintro ⟨⟩) (fun k' hk' => ?_) (fun _ _ => ?_) rfl ?_ ⟨rfl, rfl, rfl⟩
    ⟨hlt, hat, hset, ?_, ?_⟩
  · unfold Caller.Ok
    dsimp only
    rw [hjpc, hl, hn, ht]
    exact ⟨iff_of_false Bool.false_ne_true fun hx => hx rfl, .inl hw⟩
  · rw [hpc]
    exact iff_of_false (fun hx => hk' (Option.some.inj hx).symm) (by rintro ⟨⟩)
  · rw [hpc]
    exact Iff.rfl
  · change (s.broken || !(s.caller j).sth) = false
    rw [h.intact, hsth]
    rfl
  · unfold Pending State.take State.set
    dsimp only
    rw [Function.update_self]
    exact hj
  · change (Function.update s.caller j _ j).asked = none
    rw [Function.update_self]
    exact hasked

/-- The rest of it: the consumer thread is in its slot, and the caller has the lock. -/
theorem inv_park (h : Inv s q .thread) (hpc : s.consumer = .parking j) :
    Inv { s.wake j with consumerSth := true, consumer := .parked } q (.caller j) := by
  rcases h.mode with ⟨hlt, hat, _, hok⟩
  rw [hpc] at hok
  rcases hok with ⟨hj, hasked⟩
  have hjpc := hj.2.1
  have hjok := h.callers j
  unfold Caller.Ok at hjok
  rw [hjpc] at hjok
  have hsth : (s.caller j).sth = false := by
    rw [← Bool.not_eq_true, hjok.1]
    refine fun hx => hx ?_
    change s.consumer.takes = _
    rw [hpc]
    rfl
  -- The caller of `with_lock` wakes up inside its section, and the lock is its own.
  have hwake : (s.wake j).caller =
      Function.update s.caller j { s.caller j with pc := .inside } := by
    rw [State.wake, if_pos hasked]
    rfl
  have hself : (s.wake j).caller j = { s.caller j with pc := .inside } := by
    rw [hwake, Function.update_self]
  have htakes : ∀ k', (Mode.caller j).taken
      { s.wake j with consumerSth := true, consumer := .parked } = some k' ↔ False := by
    intro k'
    change ((s.wake j).caller j).pc.takes = _ ↔ _
    rw [hself]
    exact iff_of_false (by rintro ⟨⟩) id
  refine h.serves (n := .caller j) (c := { s.caller j with pc := .inside }) (p := .parked) hwake
    (past_eq (by rw [hjpc]; rfl) rfl rfl rfl rfl)
    (fun e _ _ _ _ hh => ⟨(h.waits hj).1, hsth, hasked, hh⟩) rfl
    (fun k' hk' hx => hk' (Option.some.inj hx).symm) (fun k' hk' => ?_) (fun _ _ => ?_) rfl
    h.intact ⟨rfl, rfl, rfl⟩ ⟨hlt, hat, rfl, ?_, ?_⟩
  · rw [htakes k', hpc]
    exact iff_of_false id fun hx => hk' (Option.some.inj hx).symm
  · rw [hpc]
    exact Iff.rfl
  · change true = true ↔ ((s.wake j).caller j).pc ≠ _
    rw [hself]
    exact iff_of_true rfl (by simp)
  · change ((s.wake j).caller j).pc.Ok _ q ((s.wake j).caller j).claim
    rw [hself]
    exact hj.2.2.2

/-- `progress` hands back a call that is completed. -/
theorem inv_progress (h : Inv s q .thread) (hpc : s.consumer = .progressing)
    (hkept : (s.caller k).kept = .completed) :
    Inv { s.set k { s.caller k with kept := .nothing } with consumer := .checking (some k) } q
      .thread := by
  rcases h.mode with ⟨hlt, hat, hset, hd⟩
  rw [hpc] at hset hd
  have hkok := h.callers k
  -- Only callers that are asleep have calls that the consumer keeps.
  have hasleep : (s.caller k).pc = .asleep ∧ (s.caller k).ran = true := by
    unfold Caller.Ok at hkok
    cases hkpc : (s.caller k).pc <;> rw [hkpc] at hkok
    case asleep =>
      rcases hkok.2 with ⟨⟨_, hx, _⟩, _⟩ | ⟨hran, _⟩
      · exact absurd (hkept.symm.trans hx) (by simp)
      · exact ⟨rfl, hran⟩
    case resting => exact absurd hkok.2.2.2.2.2 (by rintro ⟨⟩)
    all_goals exact absurd (hkept.symm.trans hkok.1.2.1) (by simp)
  rcases hasleep with ⟨hkpc, hran⟩
  rcases h.slept hkpc hran with ⟨hasked, hvalue, hrest⟩
  have hgiven : (s.caller k).given ≠ none ∧ (s.caller k).out = (s.caller k).given := by
    rcases hrest with (hx | ⟨_, hx⟩) | ⟨hx, _⟩
    · exact absurd (hkept.symm.trans hx) (by simp)
    · exact hx
    · exact absurd (hkept.symm.trans hx) (by simp)
  rcases h.sleeper hkpc (by rw [hpc]; rfl) with ⟨hclaimed, hsth⟩
  refine h.serves (p := .checking (some k)) rfl (past_eq hclaimed hclaimed rfl rfl rfl)
    (fun e _ _ ht hw _ => ?_) rfl (fun _ _ => by rintro ⟨⟩) (fun _ _ => ?_) (fun k' hk' => ?_)
    rfl h.intact ⟨rfl, rfl, rfl⟩ ⟨hlt, hat, hset, hd, ?_⟩
  · have hne : e.taken ≠ some k := by
      rw [ht]
      rintro ⟨⟩
    unfold Caller.Ok
    dsimp only
    rw [hkpc]
    exact ⟨iff_of_true hsth hne, .inr ⟨hran, hasked, hvalue, hne, .inr ⟨rfl, hw⟩⟩⟩
  · rw [hpc]
    exact Iff.rfl
  · rw [hpc]
    exact iff_of_false (fun hx => hk' (Option.some.inj hx).symm) (by rintro ⟨⟩)
  · rintro _ ⟨⟩
    unfold Answered State.set
    dsimp only
    rw [Function.update_self]
    exact ⟨⟨hkpc, hran, rfl⟩, hgiven⟩

/-- A caller is woken with its response. -/
theorem inv_wake (h : Inv s q .thread) {suspends : Bool} (hpc : s.consumer = .waking k suspends) :
    Inv { s.notify k with consumer := if suspends = true then .suspending else .top } q
      .thread := by
  rcases h.mode with ⟨hlt, hat, hset, hok⟩
  rw [hpc] at hok hset
  rcases hok with ⟨hd, he, ⟨⟨hkpc, hran, hkept⟩, hgiven, hout⟩, hquiet⟩
  rcases h.slept hkpc hran with ⟨hasked, hvalue, _⟩
  have hsth := (h.sleeper hkpc (by rw [hpc]; rfl)).2
  -- The caller goes home with its response.
  have hcaller : (s.notify k).caller = Function.update s.caller k
      { s.caller k with sth := false, pc := .returning } := by
    simp only [State.notify, State.take, State.wake, State.setPc, State.set,
      Function.update_self, Function.update_idem, hasked, if_false]
  -- The consumer thread goes on to suspend, or starts over.
  have hpcs : ∀ pc : Consumer K Resp,
      pc = (if suspends = true then .suspending else .top) → pc.takes = none ∧ pc.wakes = none ∧
        pc.sits = false ∧ ∀ s' : State K Req Resp, s'.isExecuted = true → Done s' q →
          (suspends = true → Quiet s') → pc.Ok s' q := by
    rintro pc rfl
    cases suspends with
    | true => exact ⟨rfl, rfl, rfl, fun s' he' hd' hq' => ⟨hd', he', hq' rfl⟩⟩
    | false => exact ⟨rfl, rfl, rfl, fun s' he' hd' _ => .inl ⟨he', hd'⟩⟩
  rcases hpcs _ rfl with ⟨htakes, hwakes, hsits, hok⟩
  refine h.serves (n := .thread) (c := { s.caller k with sth := false, pc := .returning })
    (p := if suspends = true then .suspending else .top) hcaller
    (past_eq (by rw [hkpc]; rfl) rfl rfl rfl rfl)
    (fun e _ _ _ _ _ => ⟨⟨hran, hkept, fun _ => ⟨hgiven, .inr ⟨hvalue, hout⟩⟩⟩, rfl⟩) rfl
    (fun _ _ => by rintro ⟨⟩) (fun k' _ => ?_) (fun k' hk' => ?_) rfl ?_ ⟨rfl, rfl, rfl⟩
    ⟨hlt, hat, ?_, hok _ he hd fun hx k' => ?_⟩
  · change (if suspends = true then Consumer.suspending else Consumer.top).takes = _ ↔ _
    rw [htakes, hpc]
    exact Iff.rfl
  · rw [hwakes, hpc]
    exact iff_of_false (by rintro ⟨⟩) fun hx => hk' (Option.some.inj hx).symm
  · change (s.broken || !(s.caller k).sth) = false
    rw [h.intact, hsth]
    rfl
  · change s.consumerSth = (if suspends = true then Consumer.suspending else Consumer.top).sits
    rw [hsits, hset]
    rfl
  · change ((s.notify k).caller k').kept = _
    rw [hcaller]
    by_cases hkk : k' = k
    · rw [hkk, Function.update_self]
      exact hkept
    · rw [Function.update_of_ne hkk]
      exact hquiet hx k'

/-- A step of the consumer thread. -/
theorem inv_serve (h : Inv s q m) (hpc : s.consumer ≠ .parked) {a : Answers K Resp}
    (ha : a.Honest fun k => (s.caller k).kept) :
    (∀ o, s.consumer.op = some o → q.allowed o) ∧
      ∃ m', Inv (s.serve a ((s.consumer.op.map q.result).getD .linked))
        ((s.consumer.op.map q.after).getD q) m' := by
  cases h.thread hpc
  rcases h.mode with ⟨hlt, hat, hset, hok⟩
  -- A step that changes nothing but where the consumer thread is.
  have hgo : ∀ {pc pc' : Consumer K Resp} (s' : State K Req Resp), s.consumer = pc →
      s'.caller = s.caller → s'.consumer = pc' → pc.takes = none ∧ pc'.takes = none →
      pc'.wakes = pc.wakes → s'.node = s.node ∧ s'.consumerSth = pc'.sits ∧ s'.broken = false →
      s'.order = s.order ∧ s'.served = s.served ∧ s'.executed = s.executed →
      s'.head = s.head → pc'.Ok s' q → ∃ m', Inv s' q m' := by
    intro pc pc' s' hp hcaller hconsumer htakes hwakes hfields hlists hhead hok'
    subst hp
    exact ⟨.thread, h.turns hcaller hconsumer htakes hwakes hfields hlists h.lock ⟨rfl, rfl⟩ hlt
      (hhead.trans hat) hok'⟩
  -- Callers that are quiet are so in any state with the same callers.
  have hq : ∀ (s' : State K Req Resp), s'.caller = s.caller → Quiet s → Quiet s' := by
    intro s' hs' hx k
    rw [hs']
    exact hx k
  -- The accesses of one round of the consumer thread, in their order.
  cases hp : s.consumer with
  | starting | parked =>
      rw [hp] at hok
      exact hok.elim
  | top =>
      rw [hp] at hok hset
      refine ⟨by rintro _ ⟨⟩, ?_⟩
      unfold State.serve
      rw [hp]
      dsimp only
      -- It serves the request of its successor, or looks for one first.
      rcases hok with ⟨he, hd⟩ | ⟨he, hj⟩
      · rw [if_pos he]
        exact hgo _ hp rfl rfl ⟨rfl, rfl⟩ rfl ⟨rfl, hset, h.intact⟩ ⟨rfl, rfl, rfl⟩ rfl hd
      · rw [if_neg (by rw [he]; simp)]
        exact hgo _ hp rfl rfl ⟨rfl, rfl⟩ rfl ⟨rfl, hset, h.intact⟩ ⟨rfl, rfl, rfl⟩ rfl hj
  | following =>
      rw [hp] at hok hset
      refine ⟨by rintro _ ⟨⟩; exact hlt, .thread, ?_⟩
      change Inv (s.serve a (q.result .tryFollowHead)) (q.after .tryFollowHead) .thread
      unfold State.serve
      rw [hp]
      -- With a successor the lock is served once more; without one nothing changes.
      by_cases hnext : q.HasNext
      · have hafter : q.after .tryFollowHead = { q with served := q.served + 1 } := by
          rw [LockQueue.after, if_pos hnext]
        have hlock := h.lock.after (o := .tryFollowHead) hlt
        rw [hafter] at hlock
        rw [LockQueue.result, if_pos hnext, hafter]
        -- The claim that comes next is linked, so that its caller is asleep.
        rcases h.next_asleep hok hnext with ⟨j, hjpc, hjran, hjclaim, hjnode⟩
        refine h.turns (p := .asking false) rfl rfl ⟨by rw [hp]; rfl, rfl⟩ (by rw [hp]; rfl)
          ⟨rfl, hset, h.intact⟩ ⟨rfl, rfl, rfl⟩ hlock ⟨rfl, rfl⟩ hnext.1 rfl
          ⟨j, hjnode, hjpc, hjran, hjclaim, ?_⟩
        exact congrArg (· + 1) hok
      · have hafter : q.after .tryFollowHead = q := by
          rw [LockQueue.after, if_neg hnext]
        rw [LockQueue.result, if_neg hnext, hafter]
        exact h.turns (p := .asking true) rfl rfl ⟨by rw [hp]; rfl, rfl⟩ (by rw [hp]; rfl)
          ⟨rfl, hset, h.intact⟩ ⟨rfl, rfl, rfl⟩ h.lock ⟨rfl, rfl⟩ hlt hat hok
  | asking isExecuted =>
      rw [hp] at hok hset
      refine ⟨by rintro _ ⟨⟩, ?_⟩
      unfold State.serve
      rw [hp]
      cases isExecuted with
      | true =>
          cases hactive : a.active with
          | true =>
              exact hgo _ hp rfl rfl ⟨rfl, rfl⟩ rfl ⟨rfl, hset, h.intact⟩ ⟨rfl, rfl, rfl⟩ rfl hok
          | false =>
              exact hgo _ hp rfl rfl ⟨rfl, rfl⟩ rfl ⟨rfl, hset, h.intact⟩ ⟨rfl, rfl, rfl⟩ rfl
                ⟨hok, by rintro _ ⟨⟩⟩
      | false =>
          rcases hok with ⟨j, hj⟩
          have hcall : s.isCall s.head = true ↔ (s.caller j).asked ≠ none := by
            unfold State.isCall
            rw [hat, hj.1, Option.any_some, Option.isSome_iff_ne_none]
          dsimp only
          by_cases hx : s.isCall s.head = true
          · rw [if_pos hx]
            exact hgo _ hp rfl rfl ⟨rfl, rfl⟩ rfl ⟨rfl, hset, h.intact⟩ ⟨rfl, rfl, rfl⟩ rfl
              ⟨j, hj, hcall.mp hx⟩
          · rw [if_neg hx]
            refine hgo _ hp rfl rfl ⟨rfl, rfl⟩ rfl ⟨rfl, hset, h.intact⟩ ⟨rfl, rfl, rfl⟩ rfl
              ⟨j, hj, ?_⟩
            by_contra hne
            exact hx (hcall.mpr hne)
  | executing =>
      rw [hp] at hok
      rcases hok with ⟨j, hj, hasked⟩
      refine ⟨by rintro _ ⟨⟩, .thread, ?_⟩
      unfold State.serve
      simp only [hp, hat, hj.1]
      exact inv_run h hp hj hasked a.execute
  | finishing k v =>
      refine ⟨by rintro _ ⟨⟩, .thread, ?_⟩
      unfold State.serve
      rw [hp]
      exact inv_finish h hp
  | swapping =>
      rw [hp] at hok
      rcases hok with ⟨j, hj, hasked⟩
      refine ⟨by rintro _ ⟨⟩, .thread, ?_⟩
      unfold State.serve
      simp only [hp, hat, hj.1]
      exact inv_swap h hp hj hasked
  | parking j =>
      refine ⟨by rintro _ ⟨⟩, .caller j, ?_⟩
      unfold State.serve
      rw [hp]
      exact inv_park h hp
  | progressing =>
      rw [hp] at hok hset
      refine ⟨by rintro _ ⟨⟩, ?_⟩
      unfold State.serve
      rw [hp]
      dsimp only
      -- Progress may complete a deferred call, which is then to be woken.
      cases hprogress : a.progress with
      | none =>
          exact hgo _ hp rfl rfl ⟨rfl, rfl⟩ rfl ⟨rfl, hset, h.intact⟩ ⟨rfl, rfl, rfl⟩ rfl
            ⟨hok, by rintro _ ⟨⟩⟩
      | some k => exact ⟨.thread, inv_progress h hp (ha.2 k hprogress)⟩
  | checking awake =>
      rw [hp] at hok hset
      rcases hok with ⟨hd, hawake⟩
      refine ⟨by rintro _ ⟨⟩, ?_⟩
      unfold State.serve
      rw [hp]
      cases awake with
      | some k =>
          refine hgo _ hp rfl rfl ⟨rfl, rfl⟩ rfl ⟨rfl, hset, h.intact⟩ ⟨rfl, rfl, rfl⟩ rfl
            ⟨hd, rfl, hawake k rfl, fun hx => hq _ rfl (ha.idle ?_)⟩
          simpa using hx
      | none =>
          cases hactive : a.active with
          | true =>
              exact hgo _ hp rfl rfl ⟨rfl, rfl⟩ rfl ⟨rfl, hset, h.intact⟩ ⟨rfl, rfl, rfl⟩ rfl
                (.inl ⟨rfl, hd⟩)
          | false =>
              exact hgo _ hp rfl rfl ⟨rfl, rfl⟩ rfl ⟨rfl, hset, h.intact⟩ ⟨rfl, rfl, rfl⟩ rfl
                ⟨hd, rfl, hq _ rfl (ha.idle hactive)⟩
  | waking k suspends =>
      refine ⟨by rintro _ ⟨⟩, .thread, ?_⟩
      unfold State.serve
      rw [hp]
      exact inv_wake h hp
  | suspending =>
      rw [hp] at hok hset
      refine ⟨by rintro _ ⟨⟩, ?_⟩
      unfold State.serve
      rw [hp]
      exact hgo _ hp rfl rfl ⟨rfl, rfl⟩ rfl ⟨rfl, rfl, h.intact⟩ ⟨rfl, rfl, rfl⟩ rfl hok
  | releasing =>
      rw [hp] at hok hset
      refine ⟨by rintro _ ⟨⟩; exact hlt, ?_⟩
      -- Before it parks, the thread tries to unlock.
      rcases hok with ⟨hd, he, hquiet⟩
      change ∃ m', Inv (s.serve a (q.result .tryUnlock)) (q.after .tryUnlock) m'
      unfold State.serve
      rw [hp]
      by_cases hlast : q.served + 1 = q.claimed
      · -- Nobody has come since, and the lock is free.
        have hafter : q.after .tryUnlock = { q with served := q.claimed } := by
          rw [LockQueue.after, if_pos hlast]
        have hlock := h.lock.after (o := .tryUnlock) hlt
        rw [hafter] at hlock
        rw [LockQueue.result, beq_iff_eq.mpr hlast, hafter]
        refine ⟨.free, h.step (fun _ => rfl) (fun k => ?_)
          ⟨rfl, (congrArg (· + 1) hd).trans hlast, rfl, hset, hquiet⟩ hlock rfl ⟨rfl, rfl, rfl⟩
          h.intact⟩
        refine (h.callers k).congr ⟨fun _ => ⟨rfl, rfl⟩, Iff.rfl, ?_, ?_⟩
        · change none = _ ↔ s.consumer.takes = _
          rw [hp]
          exact Iff.rfl
        · change none = _ ↔ s.consumer.wakes = _
          rw [hp]
          exact Iff.rfl
      · have hafter : q.after .tryUnlock = q := by
          rw [LockQueue.after, if_neg hlast]
        rw [LockQueue.result, beq_false_of_ne hlast, hafter]
        exact hgo _ hp rfl rfl ⟨rfl, rfl⟩ rfl ⟨rfl, hset, h.intact⟩ ⟨rfl, rfl, rfl⟩ rfl
          ⟨hd, he, hquiet⟩
  | cancelling =>
      rw [hp] at hok hset
      rcases hok with ⟨hd, he, _⟩
      refine ⟨by rintro _ ⟨⟩, ?_⟩
      unfold State.serve
      rw [hp]
      refine hgo _ hp rfl rfl ⟨rfl, rfl⟩ rfl ⟨rfl, rfl, ?_⟩ ⟨rfl, rfl, rfl⟩ rfl (.inl ⟨he, hd⟩)
      change (s.broken || !s.consumerSth) = false
      rw [h.intact, hset]
      rfl

end Delegator

end Delegate

end Cmpth

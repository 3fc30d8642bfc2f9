import Cmpth.Delegate.Agree
import Cmpth.Delegate.DelegatorServe

/-!
# The Contract of a Delegator

What a delegator promises, in every state it reaches over either of the two queues.

The invariant is kept by every step over the abstract lock, and it says more than the users of a
delegator need to know. A queue that implements the lock answers each operation as the lock does,
provided that the protocol has the operation where it comes. The invariant says that too, so that
the delegator over the queue passes through the states it passes through over the lock.

## Main definitions

* `Contract`: What a delegator promises its callers, its consumer and its queue.

## Theorems

* `inv_next`, `inv_start`: Every step keeps the invariant, once the consumer thread has run.
* `next_returned`: A caller that has returned is left alone.
* `Inv.contract`: The invariant implies the contract.
* `reachable_of_running`: Over a queue that implements the lock, the delegator does what it does
  over the lock.
* `delegates`: The contract, over the linked queue and over the ring of any size.
* `Inv.holder_pc`, `Inv.mem_served`, `Inv.nodup`, `Inv.final`, `Inv.idle`, `Inv.uses`, `Pending.ne`:
  What the invariant says of the callers.
* `inv_step`, `guard_init`, `stays_next`: Steps of a caller, and those before the consumer thread
  has run.
* `notify_ne`, `set_ne`, `setPc_ne`, `take_ne`, `follow_ne`, `unlock_returned`, `rest_returned`,
  `serve_returned`: Callers that a step leaves alone.
* `contract_init`, `delegates_relayed`: The contract at the start, and of two calls.
-/

namespace Cmpth

namespace Delegate

namespace Delegator

variable {K Req Resp : Type*} {s : State K Req Resp} {q : LockQueue} {m : Mode K} {k j : K}

/-- What a delegator promises its callers, its consumer and its queue. -/
structure Contract [DecidableEq K] (s : State K Req Resp) (q : LockQueue) : Prop where
  /-- Only one thread can go on to use the object. -/
  exclusive : ∀ a b u v, guard s a → guard s b → uses s a = some u → uses s b = some v → u = v
  /-- The queue is used as its protocol says. -/
  allowed : ∀ a o, guard s a → op s a = some o → q.allowed o
  /-- No token was looked for in an empty slot. -/
  intact : s.broken = false
  /-- The turns come in the order of the claims, and nobody has two. -/
  nodup : s.order.Nodup
  served : s.served <+: s.order
  executed : s.executed = s.served.flatMap fun k => (s.caller k).asked.toList.map (k, ·)
  /-- Who has returned has had its turn, and has what the consumer answered. -/
  returned : ∀ k v, (s.caller k).pc = .returned v →
    k ∈ s.served ∧ (s.caller k).kept = .nothing ∧ ((s.caller k).asked = none → v = none) ∧
      ((s.caller k).asked ≠ none → v ≠ none ∧ v = (s.caller k).given)
  /-- And it does not return again. -/
  once : ∀ k v a r, (s.caller k).pc = .returned v → guard s a → (next s r a).caller k = s.caller k
  /-- While a caller has the lock the consumer thread is in its slot, up to the moment at which
      the caller goes to sleep in its place. -/
  parked : ∀ k, (s.caller k).pc.Holds → s.consumer = .parked ∧
    (s.consumerSth = false → (s.caller k).pc = .resting (.parking none))
  /-- A caller whose call is deferred finds the consumer active. -/
  active : ∀ k stage, (s.caller k).pc = .resting stage →
    stage ≠ .suspending ∧ stage ≠ .releasing ∧ stage ≠ .cancelling
  /-- When the consumer thread takes its own token back it is there, and nobody has the lock. -/
  cancels : s.consumer = .cancelling → s.consumerSth = true ∧ ∀ k, ¬ (s.caller k).pc.Holds
  /-- When the lock is free nobody waits, and the consumer has no call. -/
  free : q.served = q.claimed → s.served = s.order ∧ ∀ k, (s.caller k).kept = .nothing ∧
    (s.caller k).pc ≠ .asleep ∧ ∀ i, (s.caller k).pc ≠ .waiting i ∧ (s.caller k).pc ≠ .linking i
  /-- Somebody is awake while anybody sleeps. -/
  awake : ∀ k, (s.caller k).pc = .asleep →
    (∃ j, (s.caller j).pc.Holds) ∨ s.consumer ≠ .parked

section

theorem Inv.holder_pc (h : Inv s q (.caller k)) : (s.caller k).pc.Holds := by
  have hok := h.mode.2.2.2.2
  revert hok
  cases (s.caller k).pc <;> simp [Pc.Ok, Pc.Holds]

/-- A caller whose turn has come is among those that were served. -/
theorem Inv.mem_served (h : Inv s q m) (hpc : (s.caller k).pc.claimed = true)
    (hran : (s.caller k).ran = true) : k ∈ s.served := by
  have hle := (h.ran_iff hpc).mp hran
  have hpast := State.past_claimed hpc
  have hpos : 0 < (s.caller k).claim := h.history.pos k _ hpast
  have hget := (h.history.claim ((s.caller k).claim - 1) k).mpr ⟨_, hpast, by
    change (s.caller k).claim = _
    omega⟩
  have hlt : (s.caller k).claim - 1 < s.served.length := by omega
  have hsame := (List.prefix_iff_getElem?.mp h.history.turns) _ hlt
  rw [hget] at hsame
  rw [Option.some.inj hsame]
  exact List.getElem_mem hlt

theorem Inv.nodup (h : Inv s q m) : s.order.Nodup := by
  rw [List.nodup_iff_getElem?_ne_getElem?]
  intro i j hij hj heq
  have hget := List.getElem?_eq_getElem hj
  rcases (h.history.claim j _).mp hget with ⟨p, hp, hpj⟩
  rcases (h.history.claim i _).mp (heq.trans hget) with ⟨p', hp', hpi⟩
  rw [hp] at hp'
  cases hp'
  omega

theorem Inv.final (h : Inv s q m) {v : Option Resp} (hpc : (s.caller k).pc = .returned v) :
    (s.caller k).Final ∧ v = (s.caller k).response := by
  have hok := h.callers k
  unfold Caller.Ok at hok
  rw [hpc] at hok
  exact ⟨hok.1, hok.2.2⟩

/-- Nobody sleeps while the lock is free. -/
theorem Inv.idle (h : Inv s q .free) : (s.caller k).pc ≠ .asleep ∧
    ∀ i, (s.caller k).pc ≠ .waiting i ∧ (s.caller k).pc ≠ .linking i := by
  rcases h.mode with ⟨_, hlen, hparked, _, hquiet⟩
  have hok := h.callers k
  unfold Caller.Ok at hok
  refine ⟨fun hpc => ?_, fun i => ⟨fun hpc => ?_, fun hpc => ?_⟩⟩
  · have hclaimed : (s.caller k).pc.claimed = true := by
      rw [hpc]
      rfl
    rw [hpc] at hok
    -- A caller that sleeps waits for its turn, for its response or to be woken.
    rcases hok.2 with ⟨⟨hran, _⟩, _⟩ | ⟨_, _, _, _, (hx | ⟨hx, _⟩) | ⟨_, hx⟩⟩
    · -- Its turn has not come, though everybody's has.
      have hlt := h.history.claim_lt (State.past_claimed hclaimed)
      have hran' := h.ran_iff hclaimed
      rw [hran] at hran'
      simp only [Bool.false_eq_true, false_iff] at hran'
      change (s.caller k).claim < _ at hlt
      omega
    · rw [hquiet k] at hx
      cases hx
    · rw [hquiet k] at hx
      cases hx
    · change s.consumer.wakes = _ at hx
      rw [hparked] at hx
      cases hx
  · rw [hpc] at hok
    refine (h.behind ?_ ?_ hok.1.1).1 rfl <;> rw [hpc]
    · rfl
    · exact ⟨by simp, id⟩
  · rw [hpc] at hok
    refine (h.behind ?_ ?_ hok.1.1).1 rfl <;> rw [hpc]
    · rfl
    · exact ⟨by simp, id⟩

/-- Who may use the object. -/
def Mode.user : Mode K → Option (Option K)
  | .free => none
  | .caller k => some (some k)
  | .thread => some none

/-- Who uses the object has the lock. -/
theorem Inv.uses (h : Inv s q m) [DecidableEq K] {a : Action K Req Resp} {u : Option K}
    (hg : guard s a) (hu : uses s a = some u) : m.user = some u := by
  -- Calls begin without the object; the steps that use it are those of the holder.
  cases a with
  | call k r | withLock k | complete k v => cases hu
  | step k a =>
      unfold Delegator.uses at hu
      dsimp only at hu
      split at hu
      case h_5 => cases hu
      all_goals
        rename_i hpc
        cases hu
        rw [h.holds (k := k) (by rw [hpc]; trivial)]
        rfl
  | serve a =>
      unfold Delegator.uses at hu
      dsimp only at hu
      split at hu
      case h_5 => cases hu
      all_goals
        cases hu
        rw [h.thread hg.1]
        rfl

end

/-- `start` has taken the lock, and the consumer thread begins. -/
theorem inv_start (hi : init s) : Inv s.top (LockQueue.new.after .startLock) .thread := by
  rcases hi with ⟨hhead, hexecuted, _, hsth, hbroken, horder, hserved, hruns, hcallers⟩
  have hpast : ∀ k, s.top.past k = none := by
    intro k
    change (s.caller k).past = none
    rw [Caller.past, (hcallers k).2.2.2.2.2]
    rfl
  -- The consumer thread has the only claim.
  refine ⟨LockQueue.ok_new.after trivial, ⟨?_, fun k p hp => ?_, fun i k => ?_, fun k p hp => ?_,
    ?_, ?_⟩, fun k => ?_, ⟨Nat.zero_lt_one, hhead, hsth, .inl ⟨hexecuted, ?_⟩⟩, hbroken⟩
  · change 1 = s.order.length + 1
    rw [horder]
    rfl
  · rw [hpast k] at hp
    cases hp
  · change s.order[i]? = _ ↔ _
    rw [horder, hpast k]
    exact iff_of_false (by simp) (by rintro ⟨_, hx, _⟩; cases hx)
  · rw [hpast k] at hp
    cases hp
  · change s.served <+: s.order
    rw [hserved, horder]
  · change s.executed = s.served.flatMap _
    rw [hruns, hserved]
    rfl
  · change (s.caller k).Ok k _
    rcases hcallers k with ⟨hset, hvalue, hkept, hran, _, hpc⟩
    unfold Caller.Ok
    rw [hpc]
    exact ⟨⟨hran, hkept, hvalue⟩, hset⟩
  · change s.served.length = 0
    rw [hserved]
    rfl

variable [DecidableEq K]

/-- A step of a caller. -/
theorem inv_step (h : Inv s q m) {a : Answers K Resp} (hg : guard s (.step k a)) :
    (∀ o, op s (.step k a) = some o → q.allowed o) ∧
      ∃ m', Inv (s.step k a (((op s (.step k a)).map q.result).getD .linked))
        (((op s (.step k a)).map q.after).getD q) m' := by
  have hsteps := hg.1
  have hok := h.callers k
  unfold Caller.Ok at hok
  unfold State.step op
  dsimp only
  -- Each step of a caller makes the operation of the queue that its place calls for.
  cases hpc : (s.caller k).pc with
  | idle | asleep | returned v =>
      rw [hpc] at hsteps
      exact hsteps.elim
  | starting =>
      refine ⟨?_, inv_startLock h hpc⟩
      rintro _ ⟨⟩
      trivial
  | waiting i => exact ⟨by rintro _ ⟨⟩, m, inv_fill h hpc⟩
  | linking i =>
      rcases inv_link h hpc with ⟨hallowed, hinv⟩
      refine ⟨?_, m, hinv⟩
      rintro _ ⟨⟩
      exact hallowed
  | executing =>
      rw [hpc] at hok
      rcases hok with ⟨_, hsth, hasked, _⟩
      refine ⟨by rintro _ ⟨⟩, m, ?_⟩
      dsimp only [State.execute]
      cases a.execute with
      | none =>
          refine inv_own h (.inl hpc) rfl (if_pos rfl) (fun e he => ?_) (.inr rfl)
            ⟨rfl, rfl, rfl, rfl, rfl⟩ ⟨rfl, rfl, rfl⟩
          exact ⟨rfl, hasked, rfl, .inl rfl, hsth, he⟩
      | some v =>
          refine inv_own h (.inl hpc) rfl (if_pos rfl) (fun e he => ?_) (.inl rfl)
            ⟨rfl, rfl, rfl, rfl, rfl⟩ ⟨rfl, rfl, rfl⟩
          exact ⟨⟨rfl, rfl, fun _ => ⟨by simp, .inl rfl⟩⟩, hsth, he⟩
  | inside =>
      rw [hpc] at hok
      rcases hok with ⟨⟨_, hkept, _⟩, hsth, hasked, _⟩
      refine ⟨by rintro _ ⟨⟩, m, inv_own h (.inr hpc) rfl (if_pos rfl) (fun e he => ?_) (.inl rfl)
        ⟨rfl, rfl, rfl, rfl, rfl⟩ ⟨rfl, rfl, ?_⟩⟩
      · exact ⟨⟨rfl, hkept, fun hx => absurd hasked hx⟩, hsth, he⟩
      · rw [hasked]
        exact (List.append_nil _).symm
  | unlocking stage => exact inv_unlock h hpc hg.2
  | resting stage => exact inv_rest h hpc hg.2
  | returning => exact ⟨by rintro _ ⟨⟩, m, inv_return h hpc⟩

/-- Every step keeps the invariant, and performs an operation that the protocol has. -/
theorem inv_next (h : Inv s q m) {a : Action K Req Resp} (hg : guard s a) :
    (∀ o, op s a = some o → q.allowed o) ∧
      ∃ m', Inv (next s (((op s a).map q.result).getD .linked) a) (((op s a).map q.after).getD q)
        m' := by
  cases a with
  | call k r => exact ⟨by rintro _ ⟨⟩, m, inv_call h hg.1 (some r)⟩
  | withLock k => exact ⟨by rintro _ ⟨⟩, m, inv_call h hg.1 none⟩
  | step k a => exact inv_step h hg
  | serve a => exact inv_serve h hg.1 hg.2
  | complete k v => exact ⟨by rintro _ ⟨⟩, m, inv_complete h hg v⟩

omit [DecidableEq K] in
/-- Before the consumer thread has run nobody does anything else. -/
theorem guard_init (hi : init s) {a : Action K Req Resp} (hg : guard s a) : ∃ b, a = .serve b := by
  rcases hi with ⟨_, _, hconsumer, _, _, _, _, _, hcallers⟩
  cases a with
  | call k r | withLock k => exact absurd hconsumer hg.2
  | step k b =>
      have hsteps := hg.1
      rw [(hcallers k).2.2.2.2.2] at hsteps
      exact hsteps.elim
  | serve b => exact ⟨b, rfl⟩
  | complete k v =>
      have hkept : (s.caller k).kept = .deferred := hg
      rw [(hcallers k).2.2.1] at hkept
      cases hkept

/-- The delegator has not begun, or it keeps the invariant. -/
def Stays (s : State K Req Resp) (q : LockQueue) : Prop :=
  init s ∧ q = .new ∨ ∃ m, Inv s q m

theorem stays_next (h : Stays s q) {a : Action K Req Resp} (hg : guard s a) :
    (∀ o, op s a = some o → q.allowed o) ∧
      Stays (next s (((op s a).map q.result).getD .linked) a) (((op s a).map q.after).getD q) := by
  rcases h with ⟨hi, rfl⟩ | ⟨m, h⟩
  · -- Before anything has been called only the consumer can move.
    rcases guard_init hi hg with ⟨b, rfl⟩
    have hop : op s (.serve b) = some .startLock := by
      change s.consumer.op = _
      rw [hi.2.2.1]
      rfl
    rw [hop]
    refine ⟨?_, .inr ⟨.thread, ?_⟩⟩
    · rintro _ ⟨⟩
      trivial
    · unfold next State.serve
      dsimp only
      rw [hi.2.2.1]
      exact inv_start hi
  · rcases inv_next h hg with ⟨hallowed, hinv⟩
    exact ⟨hallowed, .inr hinv⟩

section

variable {x : K} {v : Option Resp}

theorem notify_ne (hx : x ≠ j) : (s.notify j).caller x = s.caller x := by
  simp only [State.notify, State.take, State.wake, State.setPc, State.set,
    Function.update_of_ne hx]

theorem set_ne {c : Caller K Req Resp} (hx : x ≠ k) : (s.set k c).caller x = s.caller x :=
  Function.update_of_ne hx ..

theorem setPc_ne {pc : Pc K Resp} (hx : x ≠ k) : (s.setPc k pc).caller x = s.caller x :=
  set_ne hx

theorem take_ne (hx : x ≠ k) : (s.take k).caller x = s.caller x :=
  set_ne hx

theorem follow_ne {handing : Nat → Pc K Resp} {waking : Pc K Resp} {r : Result} (hx : x ≠ k) :
    (s.follow k handing waking r).caller x = s.caller x := by
  unfold State.follow
  split <;> exact setPc_ne hx

omit [DecidableEq K] in
/-- The caller whose turn it is has not returned. -/
theorem Pending.ne (hj : Pending s q j) (hx : (s.caller x).pc = .returned v) : x ≠ j := by
  rintro rfl
  rw [hj.2.1] at hx
  cases hx

theorem unlock_returned (h : Inv s q m) (hx : (s.caller x).pc = .returned v) {stage : Unlock}
    (hpc : (s.caller k).pc = .unlocking stage) (a : Answers K Resp) (r : Result) :
    (s.unlock k a r stage).caller x = s.caller x := by
  have hxk : x ≠ k := by
    rintro rfl
    rw [hpc] at hx
    cases hx
  cases stage with
  | asking | releasing | handing i | waking => exact setPc_ne hxk
  | following => exact follow_ne hxk
  | passing i =>
      cases h.holds (k := k) (by rw [hpc]; trivial)
      have hok := h.mode.2.2.2.2
      rw [hpc] at hok
      rcases hok with ⟨rfl, j, hj, _⟩
      simp only [State.unlock, hj.1]
      rw [setPc_ne hxk, notify_ne (hj.ne hx)]

theorem rest_returned (h : Inv s q m) (hx : (s.caller x).pc = .returned v) {stage : Rest K}
    (hpc : (s.caller k).pc = .resting stage) (a : Answers K Resp) (r : Result) :
    (s.rest k a r stage).caller x = s.caller x := by
  have hxk : x ≠ k := by
    rintro rfl
    rw [hpc] at hx
    cases hx
  cases h.holds (k := k) (by rw [hpc]; trivial)
  have hok := h.mode.2.2.2.2
  rw [hpc] at hok
  -- In no stage of the rest is the caller's own program counter `returned`.
  cases stage with
  | asking | releasing | handing i | waking => exact setPc_ne hxk
  | suspending => exact set_ne hxk
  | cancelling => exact hok.elim
  | following => exact follow_ne hxk
  | passing i =>
      rcases hok with ⟨rfl, j, hj, _⟩
      simp only [State.rest, hj.1]
      rw [setPc_ne hxk, take_ne (hj.ne hx)]
  | parking next =>
      cases next with
      | none => exact set_ne hxk
      | some j =>
          unfold State.rest State.wake
          rw [setPc_ne (hok.1.ne hx)]
          exact set_ne hxk

theorem serve_returned (h : Inv s q m) (hx : (s.caller x).pc = .returned v)
    (hpc : s.consumer ≠ .parked) {a : Answers K Resp} (ha : a.Honest fun k => (s.caller k).kept)
    (r : Result) : (s.serve a r).caller x = s.caller x := by
  have hasleep : ∀ j, (s.caller j).pc = .asleep → x ≠ j := by
    rintro j hj rfl
    rw [hj] at hx
    cases hx
  -- The consumer thread writes to the caller whose turn it is, or to one it wakes.
  cases h.thread hpc
  rcases h.mode with ⟨_, hat, _, hok⟩
  unfold State.serve
  cases hp : s.consumer with
  | starting | top | suspending | releasing | cancelling | parked | checking awake => rfl
  | following =>
      dsimp only
      split <;> rfl
  | asking isExecuted => cases isExecuted <;> rfl
  | executing =>
      rw [hp] at hok
      rcases hok with ⟨j, hj, _⟩
      simp only [hat, hj.1]
      exact set_ne (hj.ne hx)
  | finishing k v =>
      rw [hp] at hok
      exact set_ne (hasleep k hok.2.2.1.1)
  | swapping =>
      rw [hp] at hok
      rcases hok with ⟨j, hj, _⟩
      simp only [hat, hj.1]
      exact take_ne (hj.ne hx)
  | parking k =>
      rw [hp] at hok
      exact setPc_ne (hok.1.ne hx)
  | progressing =>
      dsimp only
      cases hprogress : a.progress with
      | none => rfl
      | some k =>
          refine set_ne ?_
          rintro rfl
          have hkept : (s.caller x).kept = .completed := ha.2 x hprogress
          rw [(h.final hx).1.2.1] at hkept
          cases hkept
  | waking k suspends =>
      rw [hp] at hok
      exact notify_ne (hasleep k hok.2.2.1.1.1)

/-- A caller that has returned is left alone. -/
theorem next_returned (h : Inv s q m) (hx : (s.caller x).pc = .returned v)
    {a : Action K Req Resp} (hg : guard s a) (r : Result) :
    (next s r a).caller x = s.caller x := by
  have hne : ∀ k, (s.caller k).pc ≠ .returned v → x ≠ k := by
    rintro k hk rfl
    exact hk hx
  cases a with
  | call k req | withLock k => exact set_ne (hne k (by rw [hg.1]; simp))
  | complete k v =>
      refine set_ne ?_
      rintro rfl
      have hkept : (s.caller x).kept = .deferred := hg
      rw [(h.final hx).1.2.1] at hkept
      cases hkept
  | serve a => exact serve_returned h hx hg.1 hg.2 r
  | step k a =>
      have hsteps := hg.1
      have hxk : x ≠ k := by
        rintro rfl
        rw [hx] at hsteps
        exact hsteps
      change (s.step k a r).caller x = s.caller x
      unfold State.step
      -- A step changes its own caller, and whom it lets go.
      cases hpc : (s.caller k).pc with
      | idle | asleep | returned v => rfl
      | starting =>
          dsimp only [State.startLock]
          split
          · exact set_ne hxk
          · rfl
      | waiting i | executing | inside => exact set_ne hxk
      | linking i | returning => exact setPc_ne hxk
      | unlocking stage => exact unlock_returned h hx hpc a r
      | resting stage => exact rest_returned h hx hpc a r

end

theorem Inv.contract (h : Inv s q m) : Contract s q where
  exclusive a b u v ha hb hu hv :=
    Option.some.inj ((h.uses ha hu).symm.trans (h.uses hb hv))
  allowed a o hg ho := (inv_next h hg).1 o ho
  intact := h.intact
  nodup := h.nodup
  served := h.history.turns
  executed := by
    rw [h.history.requests]
    refine List.flatMap_congr fun k hk => ?_
    rcases List.getElem_of_mem (h.history.turns.subset hk) with ⟨i, hi, hik⟩
    -- What a turn has executed are the requests that its own caller asked for.
    rcases (h.history.claim i k).mp (List.getElem?_eq_some_iff.mpr ⟨hi, hik⟩) with ⟨p, hp, _⟩
    rw [hp]
    unfold State.past Caller.past at hp
    split at hp
    · cases hp
      rfl
    · cases hp
  returned k v hpc := by
    rcases h.final hpc with ⟨⟨hran, hkept, hgiven⟩, rfl⟩
    refine ⟨h.mem_served (by rw [hpc]; rfl) hran, hkept, fun hasked => if_pos hasked,
      fun hasked => ?_⟩
    rw [Caller.response, if_neg hasked]
    -- An answer that was delegated is the one that the holder put there.
    rcases hgiven hasked with ⟨hne, hvalue | ⟨hvalue, hout⟩⟩
    · rcases Option.ne_none_iff_exists'.mp hne with ⟨v, hv⟩
      rw [hvalue, hv]
      exact ⟨by simp, rfl⟩
    · rw [hvalue]
      exact ⟨hout ▸ hne, hout⟩
  once k v a r hpc hg := next_returned h hpc hg r
  parked k hholds := by
    -- Who holds is the mode, and the mode says what the consumer is at.
    cases h.holds hholds
    rcases h.mode with ⟨_, _, hparked, hset, _⟩
    refine ⟨hparked, fun hsth => ?_⟩
    by_contra hpc
    rw [hset.mpr hpc] at hsth
    cases hsth
  active k stage hpc := by
    cases h.holds (k := k) (by rw [hpc]; trivial)
    have hok := h.mode.2.2.2.2
    rw [hpc] at hok
    refine ⟨?_, ?_, ?_⟩ <;> rintro rfl <;> exact hok
  cancels hpc := by
    cases h.thread (by rw [hpc]; simp)
    refine ⟨?_, fun k hholds => ?_⟩
    · rw [h.mode.2.2.1, hpc]
      rfl
    · cases h.holds hholds
  free hfree := by
    have hm : m = .free := by
      cases m with
      | free => rfl
      | caller k | thread => exact absurd hfree (Nat.ne_of_lt h.mode.1)
    subst hm
    -- As many have been served as have claimed.
    refine ⟨h.history.turns.eq_of_length ?_, fun k => ⟨h.mode.2.2.2.2 k, h.idle⟩⟩
    have hcount := h.history.count
    have hlen := h.mode.2.1
    omega
  awake k hpc := by
    cases m with
    | free => exact absurd hpc h.idle.1
    | caller j => exact .inl ⟨j, h.holder_pc⟩
    | thread =>
        refine .inr fun hparked => ?_
        have hok := h.mode.2.2.2
        rw [hparked] at hok
        exact hok

theorem contract_init (hi : init s) : Contract s .new := by
  have hpc : ∀ k, (s.caller k).pc = .idle := fun k => (hi.2.2.2.2.2.2.2.2 k).2.2.2.2.2
  have hserve := fun {a : Action K Req Resp} => guard_init (a := a) hi
  rcases hi with ⟨_, _, hconsumer, _, hbroken, horder, hserved, hexecuted, hcallers⟩
  -- Nobody uses the object before the consumer thread has begun.
  have hnone : ∀ a u, guard s a → uses s a = some u → False := by
    intro a u ha hu
    rcases hserve ha with ⟨b, rfl⟩
    unfold uses at hu
    dsimp only at hu
    rw [hconsumer] at hu
    cases hu
  exact
    { exclusive := fun a b u v ha _ hu _ => (hnone a u ha hu).elim
      allowed := fun a o ha ho => by
        rcases hserve ha with ⟨b, rfl⟩
        change s.consumer.op = some o at ho
        rw [hconsumer] at ho
        cases ho
        trivial
      intact := hbroken
      nodup := by
        rw [horder]
        exact List.nodup_nil
      served := by rw [hserved, horder]
      executed := by
        rw [hexecuted, hserved]
        rfl
      returned := fun k v hx => by
        rw [hpc] at hx
        cases hx
      once := fun k v a r hx => by
        rw [hpc] at hx
        cases hx
      parked := fun k hx => by
        rw [hpc] at hx
        exact hx.elim
      active := fun k stage hx => by
        rw [hpc] at hx
        cases hx
      cancels := fun hx => by
        rw [hconsumer] at hx
        cases hx
      free := fun _ => by
        refine ⟨hserved.trans horder.symm, fun k => ⟨(hcallers k).2.2.1, ?_⟩⟩
        rw [hpc]
        simp
      awake := fun k hx => by
        rw [hpc] at hx
        cases hx }

theorem Stays.contract (h : Stays s q) : Contract s q := by
  rcases h with ⟨hi, rfl⟩ | ⟨m, h⟩
  · exact contract_init hi
  · exact h.contract

section

variable {σ β : Type*} {M : System σ β} {label : σ → β → Option (Op × Result)}
  {R : σ → LockQueue → Prop} {x : State K Req Resp × σ}

/-- Over a queue that implements the lock, the delegator does what it does over the lock. -/
theorem reachable_of_running (hM : LockQueue.Implements M label R)
    (h : (running M label).Reachable x) : ∃ q, R x.2 q ∧ system.Reachable (x.1, q) ∧
      Stays x.1 q := by
  refine h.induct (P := fun x => ∃ q, R x.2 q ∧ system.Reachable (x.1, q) ∧ Stays x.1 q)
    (fun x hi => ⟨.new, hM.init x.2 hi.2, .init _ ⟨hi.1, rfl⟩, .inl ⟨hi.1, rfl⟩⟩) ?_
  rintro x (a | b | ⟨a, b⟩) ⟨q, hr, hreach, hstays⟩ hg
  -- A step of the delegator alone, of the queue alone, and one that both take.
  · have hnext := (stays_next hstays hg.1).2
    have hstep := System.ReachableIf.step _ a hreach (M := system) hg.1 trivial
    have hop : op x.1 a = none := hg.2
    change system.Reachable (next x.1 (((op x.1 a).map q.result).getD .linked) a,
      ((op x.1 a).map q.after).getD q) at hstep
    rw [hop] at hnext hstep
    exact ⟨q, hr, hstep, hnext⟩
  · rcases hM.step x.2 q b hr hg.1 with ⟨_, hr'⟩ | ⟨o, ho, _⟩
    · exact ⟨q, hr', hreach, hstays⟩
    · rw [hg.2] at ho
      cases ho
  · rcases hg with ⟨ha, hb, hsome, hlabel⟩
    rcases hM.step x.2 q b hr hb with ⟨hnone, _⟩ | ⟨o, ho, _, hr'⟩
    · rw [hnone] at hlabel
      rw [← hlabel] at hsome
      cases hsome
    · have hnext := (stays_next hstays ha).2
      have hstep := System.ReachableIf.step _ a hreach (M := system) ha trivial
      have hop : op x.1 a = some o := by
        rw [← hlabel, ho]
        rfl
      change system.Reachable (next x.1 (((op x.1 a).map q.result).getD .linked) a,
        ((op x.1 a).map q.after).getD q) at hstep
      rw [hop] at hnext hstep
      have hresult : ((label x.2 b).map Prod.snd).getD .linked = q.result o := by
        rw [ho]
        rfl
      -- The queue returns what the lock does.
      refine ⟨q.after o, hr', ?_, ?_⟩
      · change system.Reachable (next x.1 (((label x.2 b).map Prod.snd).getD .linked) a, _)
        rw [hresult]
        exact hstep
      · change Stays (next x.1 (((label x.2 b).map Prod.snd).getD .linked) a) _
        rw [hresult]
        exact hnext

end

/-- The contract, over the linked queue and over a ring of any size. -/
theorem delegates {E C : Type*} [DecidableEq E] [Inhabited E] [DecidableEq C] (m : Nat) :
    (∀ x : State K Req Resp × McsQueue.State E,
      (running McsQueue.system fun s a => some (McsQueue.op a, McsQueue.result s a)).Reachable x →
        ∃ q entry, McsQueue.Rep x.2 q entry ∧ Contract x.1 q) ∧
    ∀ x : State K Req Resp × RingBufQueue.State C,
      (running (RingBufQueue.system (2 ^ m)) (RingBufQueue.label (2 ^ m))).Reachable x →
        ∃ q, RingBufQueue.Rep m x.2 q ∧ Contract x.1 q := by
  constructor
  · intro x hx
    rcases reachable_of_running McsQueue.implements hx with ⟨q, ⟨entry, hrep⟩, _, hstays⟩
    exact ⟨q, entry, hrep, hstays.contract⟩
  · intro x hx
    rcases reachable_of_running (RingBufQueue.implements m) hx with ⟨q, hrep, _, hstays⟩
    exact ⟨q, hrep, hstays.contract⟩

/-- A caller that has not called. -/
def Caller.fresh : Caller K Req Resp :=
  ⟨none, 0, false, none, none, .nothing, false, none, .idle⟩

/-- A delegator that is not started. -/
def State.fresh : State K Req Resp :=
  ⟨0, true, .starting, false, fun _ => none, fun _ => .fresh, false, [], [], []⟩

/-- A delegator over the linked queue. -/
def overMcs : System (State Bool Nat Nat × McsQueue.State Nat)
    (Joint (Action Bool Nat Nat) (McsQueue.Action Nat)) :=
  running McsQueue.system fun s a => some (McsQueue.op a, McsQueue.result s a)

instance (s : McsQueue.State Nat) : ∀ b, Decidable (McsQueue.guard s b)
  | .startLock fresh => inferInstanceAs (Decidable (s.heap fresh = none))
  | .setNext i => inferInstanceAs (Decidable (s.pending i ≠ none))
  | .tryFollowHead | .tryUnlock => inferInstanceAs (Decidable (s.head ≠ none))

instance (x : State Bool Nat Nat × McsQueue.State Nat) : ∀ a, Decidable (overMcs.guard x a)
  | .own a => inferInstanceAs (Decidable (guard x.1 a ∧ op x.1 a = none))
  | .queue b =>
      inferInstanceAs (Decidable (McsQueue.guard x.2 b ∧
        some (McsQueue.op b, McsQueue.result x.2 b) = none))
  | .both a b =>
      inferInstanceAs (Decidable (guard x.1 a ∧ McsQueue.guard x.2 b ∧ (op x.1 a).isSome ∧
        (some (McsQueue.op b, McsQueue.result x.2 b)).map Prod.fst = op x.1 a))

/-- What a consumer answers that runs nothing and hands nothing back. -/
def plain (active : Bool) : Answers Bool Nat :=
  ⟨active, none, none⟩

/-- A call is queued behind the consumer thread and deferred; a locked section gets the lock from
    the consumer thread while the call is completed, and lets it go; then the consumer thread
    hands the call back and goes to sleep. -/
def relayed : List (Joint (Action Bool Nat Nat) (McsQueue.Action Nat)) :=
  [.both (.serve (plain false)) (.startLock 0),
    .own (.call false 7), .both (.step false (plain false)) (.startLock 1),
    .own (.step false (plain false)), .both (.step false (plain false)) (.setNext 1),
    .own (.serve (plain false)), .both (.serve (plain false)) .tryFollowHead,
    .own (.serve (plain false)), .own (.serve (plain false)),
    .own (.withLock true), .both (.step true (plain true)) (.startLock 2),
    .own (.step true (plain true)), .both (.step true (plain true)) (.setNext 2),
    .own (.serve (plain true)), .both (.serve (plain true)) .tryFollowHead,
    .own (.serve (plain true)), .own (.serve (plain true)), .own (.serve (plain true)),
    .own (.complete false 9),
    .own (.step true (plain true)), .own (.step true (plain true)),
    .both (.step true (plain true)) .tryFollowHead, .own (.step true (plain true)),
    .own (.step true (plain true)),
    .own (.serve (plain true)), .both (.serve (plain true)) .tryFollowHead,
    .own (.serve (plain true)), .own (.serve ⟨true, some false, none⟩),
    .own (.serve (plain false)), .own (.serve (plain false)), .own (.serve (plain false)),
    .both (.serve (plain false)) .tryUnlock, .own (.step false (plain false))]

/-- Both return, and the queue is empty. -/
theorem delegates_relayed :
    let x := overMcs.run (.fresh, McsQueue.new) relayed
    (x.2.tail = none ∧ x.1.consumer = .parked ∧ x.1.executed = [(false, 7)] ∧
      (x.1.caller false).pc = .returned (some 9) ∧ (x.1.caller true).pc = .returned none) ∧
      ∃ q entry, McsQueue.Rep x.2 q entry ∧ Contract x.1 q := by
  refine ⟨by decide +kernel, ?_⟩
  have hinit : overMcs.init (.fresh, McsQueue.new) :=
    ⟨⟨rfl, rfl, rfl, rfl, rfl, rfl, rfl, rfl, fun _ => ⟨rfl, rfl, rfl, rfl, rfl, rfl⟩⟩,
      McsQueue.new_init⟩
  have hreach := overMcs.reachable_run relayed _ hinit (by decide +kernel)
  exact (delegates (C := Bool) 1).1 _ hreach

end Delegator

end Delegate

end Cmpth

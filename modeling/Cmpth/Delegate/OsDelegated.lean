import Cmpth.Delegate.OsDelegator

/-!
# The Contract of `OsDelegator`

The invariant of `OsDelegator`, and that it implies the contract.

The mutex says who has the object, so that the invariant is about the callers without it. A call
that is deferred has its parker in its slot by the time the guard is dropped, which is before the
consumer thread can hand it back. The consumer thread goes to sleep only while no call is deferred,
and whoever defers one later is to notify it (`Inv.alerts`).

## Main definitions

* `Caller.Ok`: What is true of a caller where it is.
* `Inv`: The invariant.

## Theorems

* `Caller.Ok.rests`: A caller that has not asked, or has its answer, keeps nothing.
* `inv_init`: The invariant holds at the beginning.
* `alerted_eq`, `alerted_ne`, `Inv.alerted`: `notify_all` on the condition variable.
* `Inv.move`, `Inv.turn`: A caller goes on, and has its turn.
* `Inv.stay`, `Inv.alone`: A caller goes on, without the mutex changing hands.
* `Inv.not_wakes`: The caller that is to be woken is in no other place.
* `Inv.open_of`: While a caller is under way, the delegator is not dropped.
* `inv_call`, `inv_complete`: A call begins, and a deferred call is completed.
* `inv_acquire`, `inv_execute`, `inv_inside`, `Inv.release`: A caller takes the mutex, runs what it
  has to, and drops the guard.
* `inv_step`: A step of a caller.
* `Inv.goes`, `Inv.tends`: The consumer thread goes on, and does something to a caller.
* `inv_progress`, `inv_notify`, `inv_serve`: A step of the consumer thread.
* `inv_drop`: A step of `drop`.
* `inv_next`: Every step keeps the invariant.
* `Inv.uses`: Who uses the object has the mutex.
* `Inv.contract`: The invariant gives the contract.
* `set_ne`, `next_returned`: A caller that has returned is left alone.
* `osDelegates`, `osDelegates_delegated`: The contract, and a run to its end.
-/

namespace Cmpth

namespace Delegate

namespace OsDelegator

variable {K Req Resp : Type*}

/-- Its turn has not come. -/
def Caller.Fresh (c : Caller Req Resp) : Prop :=
  c.ran = false ∧ c.kept = .nothing ∧ c.value = none ∧ c.sth = false ∧ c.woken = false

/-- It has run, and got no answer at once. -/
def Caller.Sent (c : Caller Req Resp) : Prop :=
  c.ran = true ∧ c.asked ≠ none ∧ c.value = none

/-- The consumer has it, completed or not. -/
def Caller.Deferred (c : Caller Req Resp) : Prop :=
  c.kept = .deferred ∨ c.kept = .completed ∧ c.given ≠ none ∧ c.out = c.given

/-- The consumer has handed it back. -/
def Caller.Answered (c : Caller Req Resp) : Prop :=
  c.kept = .nothing ∧ c.given ≠ none ∧ c.out = c.given

/-- The call has been answered for good, by `v`. -/
def Caller.Final (c : Caller Req Resp) (v : Option Resp) : Prop :=
  c.ran = true ∧ c.kept = .nothing ∧ (c.asked = none → v = none) ∧
    (c.asked ≠ none → v ≠ none ∧ v = c.given)

/-- Its parker is in its slot, with the guard dropped. -/
def Caller.Parked (c : Caller Req Resp) : Prop :=
  (c.pc = .alerting ∨ c.pc = .asleep) ∧ c.woken = false ∧ c.sth = true

/-- What is true of a caller where it is; `woken` is the caller that is about to be woken. -/
def Caller.Ok (c : Caller Req Resp) (k : K) (woken : Option K) : Prop :=
  match c.pc with
  | .idle | .locking => c.Fresh
  | .executing => c.Fresh ∧ c.asked ≠ none
  | .inside => c.Fresh ∧ c.asked = none
  | .parking => c.Sent ∧ c.Deferred ∧ c.sth = false ∧ c.woken = false
  | .releasing => c.Sent ∧ c.Deferred ∧ c.sth = true ∧ c.woken = false
  | .alerting | .asleep =>
      c.Sent ∧ (c.woken = false ∧ c.sth = true ∧ (c.Deferred ∨ c.Answered ∧ woken = some k) ∨
        c.woken = true ∧ c.Answered)
  | .clearing | .taking => c.Sent ∧ c.Answered
  | .unlocking => c.Final c.value
  | .returned v => c.Final v

/-- The mutex, the consumer thread and the callers agree with each other, and with the history. -/
structure Inv (s : State K Req Resp) : Prop where
  holds : ∀ k, (s.caller k).pc.Holds ↔ s.owner = .caller k
  thread : s.consumer.Holds ↔ s.owner = .thread
  callers : ∀ k, (s.caller k).Ok k s.consumer.wakes
  woken : ∀ k, s.consumer.wakes = some k → (s.caller k).Parked ∧ (s.caller k).Answered
  nodup : s.served.Nodup
  served : ∀ k, k ∈ s.served ↔ (s.caller k).ran = true
  executed : s.executed = s.served.flatMap fun k => (s.caller k).asked.toList.map (k, ·)
  /-- The consumer thread sleeps while there is nothing to poll for, or somebody is to notify
      it. -/
  alerts : s.consumer = .waiting false →
    (∀ k, (s.caller k).kept = .nothing) ∨ ∃ j, (s.caller j).pc.Alerts
  rests : s.closing ≠ .running → ∀ k, (s.caller k).pc.Rests
  leaves : s.consumer = .leaving ∨ s.consumer = .done → s.finished = true
  finished : s.finished = true → s.closing ≠ .running
  stops : s.closing = .alerting ∨ s.closing = .joining → s.finished = true
  joins : s.closing = .joining → s.consumer ≠ .waiting false
  intact : s.broken = false

variable {s s' : State K Req Resp} {k j : K} {c : Caller Req Resp} {o : Owner K}
  {w : Option K}

theorem Caller.Ok.rests (h : c.Ok k w) (hpc : c.pc.Rests) : c.kept = .nothing := by
  unfold Caller.Ok at h
  cases hc : c.pc <;> rw [hc] at h hpc
  case idle => exact h.2.1
  case returned v => exact h.2.1
  all_goals exact hpc.elim

theorem inv_init (hi : init s) : Inv s := by
  rcases hi with ⟨howner, hconsumer, hfinished, hclosing, hbroken, hserved, hexecuted, hcallers⟩
  have hpc : ∀ k, (s.caller k).pc = .idle := fun k => (hcallers k).2.2.2.2.2
  refine ⟨fun k => ?_, ?_, fun k => ?_, fun k hk => ?_, ?_, fun k => ?_, ?_, fun hx => ?_,
    fun hx => ?_, fun hx => ?_, fun hx => ?_, fun hx => ?_, fun hx => ?_, hbroken⟩
  · -- Nobody has begun, so the fields about callers are about idle ones.
    rw [hpc, howner]
    exact iff_of_false id (by rintro ⟨⟩)
  · rw [hconsumer, howner]
    exact iff_of_false id (by rintro ⟨⟩)
  · rcases hcallers k with ⟨hsth, hwoken, hvalue, hkept, hran, _⟩
    unfold Caller.Ok
    rw [hpc]
    exact ⟨hran, hkept, hvalue, hsth, hwoken⟩
  · rw [hconsumer] at hk
    cases hk
  · rw [hserved]
    exact List.nodup_nil
  · rw [hserved, (hcallers k).2.2.2.2.1]
    simp
  · rw [hexecuted, hserved]
    rfl
  · rw [hconsumer] at hx
    cases hx
  · exact absurd hclosing hx
  · rw [hconsumer] at hx
    rcases hx with ⟨⟨⟩⟩ | ⟨⟨⟩⟩
  · rw [hfinished] at hx
    cases hx
  · rw [hclosing] at hx
    rcases hx with ⟨⟨⟩⟩ | ⟨⟨⟩⟩
  · rw [hclosing] at hx
    cases hx

/-- The consumer thread goes on, and no caller does. -/
theorem Inv.goes (h : Inv s) {p : Consumer K}
    (howner : (p.Holds ↔ o = .thread) ∧ ∀ k, o = .caller k ↔ s.owner = .caller k)
    (hwakes : p.wakes = s.consumer.wakes)
    (halerts : p = .waiting false → ∀ k, (s.caller k).kept = .nothing)
    (hleaves : p = .leaving ∨ p = .done → s.finished = true)
    (hjoins : s.closing = .joining → p ≠ .waiting false) :
    Inv { s with owner := o, consumer := p } := by
  refine
    { h with
      holds := fun k => (h.holds k).trans (howner.2 k).symm
      thread := howner.1
      callers := fun k => ?_
      woken := fun k hk => h.woken k (hwakes.symm.trans hk)
      alerts := fun hx => .inl (halerts hx)
      leaves := hleaves
      joins := hjoins }
  change (s.caller k).Ok k p.wakes
  rw [hwakes]
  exact h.callers k

theorem alerted_eq (p : Consumer K) : p.alerted = p ∨ ∃ b, p = .waiting b := by
  cases p with
  | waiting b => exact .inr ⟨b, rfl⟩
  | locking | checking | progressing | unlocking _ | notifying _ | leaving | done => exact .inl rfl

theorem alerted_ne (p : Consumer K) : p.alerted ≠ .waiting false := by
  cases p with
  | waiting b => simp [Consumer.alerted]
  | locking | checking | progressing | unlocking _ | notifying _ | leaving | done =>
      simp [Consumer.alerted]

/-- `notify_all`. -/
theorem Inv.alerted (h : Inv s) : Inv { s with consumer := s.consumer.alerted } := by
  rcases alerted_eq s.consumer with hsame | ⟨b, hpc⟩
  · rw [hsame]
    exact h
  · have hthread := h.thread
    rw [hpc] at hthread
    rw [hpc]
    refine h.goes (p := .waiting true) ⟨hthread, fun _ => Iff.rfl⟩ ?_ (by rintro ⟨⟩)
      (by rintro (⟨⟨⟩⟩ | ⟨⟨⟩⟩)) fun _ => by rintro ⟨⟩
    rw [hpc]
    rfl

variable [DecidableEq K]

/-- One caller goes on, and has its turn or not. -/
theorem Inv.move (h : Inv s)
    (howner : (c.pc.Holds ↔ o = .caller k) ∧
      (∀ k', k' ≠ k → (o = .caller k' ↔ s.owner = .caller k')) ∧
      (o = .thread ↔ s.owner = .thread))
    (hok : c.Ok k s.consumer.wakes)
    (hpast : c.ran = (s.caller k).ran ∧ (c.asked = (s.caller k).asked ∨ c.ran = false))
    (hwoken : s.consumer.wakes = some k → c.Parked ∧ c.Answered)
    (halerts : s.consumer = .waiting false →
      ((s.caller k).kept = .nothing → c.kept = .nothing) ∧
        ((s.caller k).pc.Alerts → c.pc.Alerts))
    (hrests : s.closing ≠ .running → c.pc.Rests) : Inv { s.set k c with owner := o } := by
  have hcaller : ∀ k', Function.update s.caller k c k' = if k' = k then c else s.caller k' :=
    fun k' => Function.update_apply ..
  -- The other callers read their fields off the state before; for `k` they are the hypotheses.
  refine
    { h with
      holds := fun k' => ?_
      thread := h.thread.trans howner.2.2.symm
      callers := fun k' => ?_
      woken := fun k' hk' => ?_
      served := fun k' => ?_
      executed := ?_
      alerts := fun hx => ?_
      rests := fun hx k' => ?_ }
  · change (Function.update s.caller k c k').pc.Holds ↔ o = _
    rw [hcaller]
    split
    · next hk => exact hk ▸ howner.1
    · next hk => exact (h.holds k').trans (howner.2.1 k' hk).symm
  · change (Function.update s.caller k c k').Ok k' s.consumer.wakes
    rw [hcaller]
    split
    · next hk => exact hk ▸ hok
    · exact h.callers k'
  · change (Function.update s.caller k c k').Parked ∧ (Function.update s.caller k c k').Answered
    rw [hcaller]
    split
    · next hk => exact hwoken (hk ▸ hk')
    · exact h.woken k' hk'
  · change k' ∈ s.served ↔ (Function.update s.caller k c k').ran = true
    rw [hcaller]
    split
    · next hk =>
        rw [hpast.1, hk]
        exact h.served k
    · exact h.served k'
  · change s.executed = s.served.flatMap fun k' =>
      (Function.update s.caller k c k').asked.toList.map (k', ·)
    rw [h.executed]
    refine List.flatMap_congr fun k' hk' => ?_
    rw [hcaller]
    split
    · next hk =>
        subst hk
        rcases hpast.2 with hasked | hran
        · rw [hasked]
        · rw [h.served, ← hpast.1, hran] at hk'
          cases hk'
    · rfl
  · -- A deferred call has either been noticed or is on its way, for `k` as for the others.
    rcases h.alerts hx with hall | ⟨j, hj⟩
    · refine .inl fun k' => ?_
      change (Function.update s.caller k c k').kept = _
      rw [hcaller]
      split
      · exact (halerts hx).1 (hall k)
      · exact hall k'
    · refine .inr ⟨j, ?_⟩
      change (Function.update s.caller k c j).pc.Alerts
      rw [hcaller]
      split
      · next hk => exact (halerts hx).2 (hk ▸ hj)
      · exact hj
  · change (Function.update s.caller k c k').pc.Rests
    rw [hcaller]
    split
    · exact hrests hx
    · exact h.rests hx k'

/-- A caller goes on, without the mutex changing hands. -/
theorem Inv.stay (h : Inv s) (hholds : c.pc.Holds ↔ (s.caller k).pc.Holds)
    (hok : c.Ok k s.consumer.wakes)
    (hpast : c.ran = (s.caller k).ran ∧ (c.asked = (s.caller k).asked ∨ c.ran = false))
    (hwoken : s.consumer.wakes = some k → c.Parked ∧ c.Answered)
    (halerts : s.consumer = .waiting false →
      ((s.caller k).kept = .nothing → c.kept = .nothing) ∧
        ((s.caller k).pc.Alerts → c.pc.Alerts))
    (hrests : s.closing ≠ .running → c.pc.Rests) : Inv (s.set k c) :=
  h.move (o := s.owner) ⟨hholds.trans (h.holds k), fun _ _ => Iff.rfl, Iff.rfl⟩ hok hpast hwoken
    halerts hrests

/-- The holder has its turn. -/
theorem Inv.turn (h : Inv s) {l : List (K × Req)}
    (hpc : (s.caller k).pc.Holds ∧ c.pc.Holds) (hran : (s.caller k).ran = false ∧ c.ran = true)
    (hasked : c.asked = (s.caller k).asked) (hok : c.Ok k s.consumer.wakes)
    (hwakes : s.consumer.wakes ≠ some k)
    (halerts : s.consumer = .waiting false → c.kept = .nothing ∨ c.pc.Alerts)
    (hnot : ¬ (s.caller k).pc.Alerts)
    (hexecuted : l = s.executed ++ (s.caller k).asked.toList.map (k, ·)) :
    Inv { s.set k c with served := s.served ++ [k], executed := l } := by
  have hcaller : ∀ k', Function.update s.caller k c k' = if k' = k then c else s.caller k' :=
    fun k' => Function.update_apply ..
  have hnew : k ∉ s.served := by
    rw [h.served, hran.1]
    exact Bool.false_ne_true
  refine
    { h with
      holds := fun k' => ?_
      callers := fun k' => ?_
      woken := fun k' hk' => ?_
      nodup := h.nodup.append (List.nodup_singleton k) (List.disjoint_singleton.mpr hnew)
      served := fun k' => ?_
      executed := ?_
      alerts := fun hx => ?_
      rests := fun hx k' => ?_ }
  · change (Function.update s.caller k c k').pc.Holds ↔ _
    rw [hcaller]
    split
    · next hk =>
        subst hk
        exact iff_of_true hpc.2 ((h.holds k').mp hpc.1)
    · exact h.holds k'
  · change (Function.update s.caller k c k').Ok k' s.consumer.wakes
    rw [hcaller]
    split
    · next hk => exact hk ▸ hok
    · exact h.callers k'
  · have hne : k' ≠ k := by
      rintro rfl
      exact hwakes hk'
    change (Function.update s.caller k c k').Parked ∧ (Function.update s.caller k c k').Answered
    rw [hcaller, if_neg hne]
    exact h.woken k' hk'
  · change k' ∈ s.served ++ [k] ↔ (Function.update s.caller k c k').ran = true
    rw [hcaller, List.mem_append, List.mem_singleton]
    split
    · next hk => exact iff_of_true (.inr hk) hran.2
    · next hk =>
        rw [h.served k']
        exact or_iff_left hk
  · change l = (s.served ++ [k]).flatMap fun k' =>
      (Function.update s.caller k c k').asked.toList.map (k', ·)
    rw [hexecuted, h.executed, List.flatMap_append, List.flatMap_singleton, hcaller, if_pos rfl,
      hasked]
    congr 1
    refine List.flatMap_congr fun k' hk' => ?_
    have hne : k' ≠ k := by
      rintro rfl
      exact hnew hk'
    rw [hcaller, if_neg hne]
  · -- The caller that runs its request is the one that is to notify, if it is deferred.
    rcases h.alerts hx with hall | ⟨j, hj⟩
    · rcases halerts hx with hkept | halert
      · refine .inl fun k' => ?_
        change (Function.update s.caller k c k').kept = _
        rw [hcaller]
        split
        · exact hkept
        · exact hall k'
      · refine .inr ⟨k, ?_⟩
        change (Function.update s.caller k c k).pc.Alerts
        rw [hcaller, if_pos rfl]
        exact halert
    · have hne : j ≠ k := by
        rintro rfl
        exact hnot hj
      refine .inr ⟨j, ?_⟩
      change (Function.update s.caller k c j).pc.Alerts
      rw [hcaller, if_neg hne]
      exact hj
  · -- The delegator is not being dropped while a caller has the mutex.
    exfalso
    have hrests := h.rests hx k
    revert hpc hrests
    cases (s.caller k).pc <;> simp [Pc.Holds, Pc.Rests]

omit [DecidableEq K] in
/-- The caller that is to be woken is not in another place. -/
theorem Inv.not_wakes (h : Inv s) (hpc : ¬ (s.caller k).Parked) : s.consumer.wakes ≠ some k :=
  fun hx => hpc (h.woken k hx).1

omit [DecidableEq K] in
theorem Inv.open_of (h : Inv s) (hpc : ¬ (s.caller k).pc.Rests) : ¬ s.closing ≠ .running :=
  fun hx => hpc (h.rests hx k)

/-- `call` and `with_lock` begin. -/
theorem inv_call (h : Inv s) (hpc : (s.caller k).pc = .idle) (hopen : s.closing = .running)
    (asked : Option Req) : Inv (s.set k { s.caller k with asked := asked, pc := .locking }) := by
  have hok := h.callers k
  unfold Caller.Ok at hok
  rw [hpc] at hok
  refine h.stay ?_ hok ⟨rfl, .inr hok.1⟩ (fun hx => ?_) (fun _ => ⟨id, fun hx => ?_⟩)
    fun hx => absurd hopen hx
  · rw [hpc]
    exact Iff.rfl
  · refine absurd hx (h.not_wakes ?_)
    rw [Caller.Parked, hpc]
    simp
  · rw [hpc] at hx
    exact hx.elim

/-- A deferred call is completed. -/
theorem inv_complete (h : Inv s) (hkept : (s.caller k).kept = .deferred) (v : Resp) :
    Inv (s.set k { s.caller k with out := some v, given := some v, kept := .completed }) := by
  have hok := h.callers k
  have hnew : ({ s.caller k with out := some v, given := some v, kept := .completed } :
      Caller Req Resp).Deferred := .inr ⟨rfl, by simp, rfl⟩
  -- It was not answered before, so nobody was about to wake it.
  have hnot : ¬ (s.caller k).Answered := by
    rintro ⟨hx, _⟩
    rw [hx] at hkept
    cases hkept
  have hrests : ¬ (s.caller k).pc.Rests := by
    intro hx
    have := hok.rests hx
    rw [this] at hkept
    cases hkept
  refine h.stay Iff.rfl ?_ ⟨rfl, .inl rfl⟩ (fun hx => absurd (h.woken k hx).2 hnot)
    (fun _ => ⟨fun hx => ?_, id⟩) fun hx => absurd hx (h.open_of hrests)
  · unfold Caller.Ok at hok ⊢
    dsimp only
    -- Only a caller that is past its turn can still be deferred.
    cases hpc : (s.caller k).pc <;> rw [hpc] at hok
    case parking | releasing => exact ⟨hok.1, hnew, hok.2.2⟩
    case alerting | asleep =>
      rcases hok with ⟨hsent, ⟨hwoken, hsth, _⟩ | ⟨_, hx⟩⟩
      · exact ⟨hsent, .inl ⟨hwoken, hsth, .inl hnew⟩⟩
      · exact absurd hx hnot
    case clearing | taking => exact absurd hok.2 hnot
    case unlocking | returned => exact absurd (hkept.symm.trans hok.2.1) (by simp)
    case idle | locking => exact absurd (hkept.symm.trans hok.2.1) (by simp)
    case executing | inside => exact absurd (hkept.symm.trans hok.1.2.1) (by simp)
  · rw [hx] at hkept
    cases hkept

/-- A caller has the mutex. -/
theorem inv_acquire (h : Inv s) (hpc : (s.caller k).pc = .locking) (ho : s.owner = .nobody) :
    Inv (s.acquire k) := by
  have hok := h.callers k
  unfold Caller.Ok at hok
  rw [hpc] at hok
  -- It goes on to its section, or to its request.
  have hpcs : ∀ pc : Pc Resp, pc = (if (s.caller k).asked = none then .inside else .executing) →
      pc.Holds ∧ ∀ w : Option K, ({ s.caller k with pc := pc } : Caller Req Resp).Ok k w := by
    rintro pc rfl
    by_cases hasked : (s.caller k).asked = none
    · rw [if_pos hasked]
      exact ⟨trivial, fun _ => ⟨hok, hasked⟩⟩
    · rw [if_neg hasked]
      exact ⟨trivial, fun _ => ⟨hok, hasked⟩⟩
  rcases hpcs _ rfl with ⟨hholds, hnew⟩
  refine h.move ⟨iff_of_true hholds rfl, fun k' hk' => ?_, ?_⟩ (hnew _) ⟨rfl, .inl rfl⟩
    (fun hx => absurd hx (h.not_wakes ?_)) (fun _ => ⟨id, fun hx => ?_⟩)
    fun hx => absurd hx (h.open_of (k := k) ?_)
  · rw [ho]
    refine iff_of_false (fun hx => ?_) (by rintro ⟨⟩)
    cases hx
    exact hk' rfl
  · rw [ho]
    exact iff_of_false (by rintro ⟨⟩) (by rintro ⟨⟩)
  · rw [Caller.Parked, hpc]
    simp
  · rw [hpc] at hx
    exact hx.elim
  · rw [hpc]
    exact id

/-- A caller runs its request. -/
theorem inv_execute (h : Inv s) (hpc : (s.caller k).pc = .executing) (answer : Option Resp) :
    Inv (s.execute k answer) := by
  have hok := h.callers k
  unfold Caller.Ok at hok
  rw [hpc] at hok
  rcases hok with ⟨⟨hran, _, hvalue, hsth, hwoken⟩, hasked⟩
  have hholds : (s.caller k).pc.Holds := by
    rw [hpc]
    trivial
  have hwakes : s.consumer.wakes ≠ some k := by
    refine h.not_wakes ?_
    rw [Caller.Parked, hpc]
    simp
  have hnot : ¬ (s.caller k).pc.Alerts := by
    rw [hpc]
    exact id
  unfold State.execute
  -- It has its answer now, or its request was delegated.
  cases answer with
  | none =>
      refine h.turn ⟨hholds, trivial⟩ ⟨hran, rfl⟩ rfl ?_ hwakes (fun _ => .inr trivial) hnot rfl
      exact ⟨⟨rfl, hasked, rfl⟩, .inl rfl, hsth, hwoken⟩
  | some v =>
      refine h.turn ⟨hholds, trivial⟩ ⟨hran, rfl⟩ rfl ?_ hwakes (fun _ => .inl rfl) hnot rfl
      exact ⟨rfl, rfl, fun hx => absurd hx hasked, fun _ => ⟨by simp, rfl⟩⟩

/-- A closure runs. -/
theorem inv_inside (h : Inv s) (hpc : (s.caller k).pc = .inside) :
    Inv { s.set k { s.caller k with ran := true, pc := .unlocking } with
      served := s.served ++ [k] } := by
  have hok := h.callers k
  unfold Caller.Ok at hok
  rw [hpc] at hok
  rcases hok with ⟨⟨hran, hkept, hvalue, _, _⟩, hasked⟩
  refine h.turn (l := s.executed) ⟨?_, trivial⟩ ⟨hran, rfl⟩ rfl ?_ (h.not_wakes ?_)
    (fun _ => .inl hkept) ?_ ?_
  · rw [hpc]
    trivial
  · exact ⟨rfl, hkept, fun _ => hvalue, fun hx => absurd hasked hx⟩
  · rw [Caller.Parked, hpc]
    simp
  · rw [hpc]
    exact id
  · rw [hasked]
    exact (List.append_nil _).symm

/-- A caller drops the guard. -/
theorem Inv.release (h : Inv s) {pc : Pc Resp} (hholds : (s.caller k).pc.Holds)
    (hnot : ¬ pc.Holds ∧ ¬ (s.caller k).pc.Rests)
    (hok : ({ s.caller k with pc := pc } : Caller Req Resp).Ok k s.consumer.wakes)
    (halerts : (s.caller k).pc.Alerts → pc.Alerts) :
    Inv { s.set k { s.caller k with pc := pc } with owner := .nobody } := by
  have ho := (h.holds k).mp hholds
  refine h.move ⟨iff_of_false hnot.1 (by rintro ⟨⟩), fun k' hk' => ?_, ?_⟩ hok ⟨rfl, .inl rfl⟩
    (fun hx => absurd hx (h.not_wakes ?_)) (fun _ => ⟨id, halerts⟩)
    fun hx => absurd hx (h.open_of hnot.2)
  · rw [ho]
    refine iff_of_false (by rintro ⟨⟩) fun hx => ?_
    cases hx
    exact hk' rfl
  · rw [ho]
    exact iff_of_false (by rintro ⟨⟩) (by rintro ⟨⟩)
  · rintro ⟨hpc | hpc, _⟩ <;> rw [hpc] at hholds <;> exact hholds

/-- A caller does something that concerns nobody else. -/
theorem Inv.alone (h : Inv s) (hholds : c.pc.Holds ↔ (s.caller k).pc.Holds)
    (hrests : ¬ (s.caller k).pc.Rests) (hparked : ¬ (s.caller k).Parked)
    (hok : c.Ok k s.consumer.wakes)
    (hpast : c.ran = (s.caller k).ran ∧ c.asked = (s.caller k).asked ∧
      c.kept = (s.caller k).kept)
    (halerts : (s.caller k).pc.Alerts → c.pc.Alerts) : Inv (s.set k c) :=
  h.stay hholds hok ⟨hpast.1, .inl hpast.2.1⟩ (fun hx => absurd hx (h.not_wakes hparked))
    (fun _ => ⟨fun hx => hpast.2.2.trans hx, halerts⟩) fun hx => absurd hx (h.open_of hrests)

/-- A step of a caller. -/
theorem inv_step (h : Inv s) {a : Answers K Resp}
    (hg : (s.caller k).pc.CanStep s.owner (s.caller k).woken) : Inv (s.step k a) := by
  have hok := h.callers k
  unfold Caller.Ok at hok
  unfold State.step
  -- The accesses of a call, from the mutex to the answer.
  cases hpc : (s.caller k).pc <;> rw [hpc] at hok hg
  case idle | returned v => exact False.elim hg
  case locking => exact inv_acquire h hpc hg
  case executing => exact inv_execute h hpc a.execute
  case inside => exact inv_inside h hpc
  case parking =>
    refine h.alone ?_ ?_ ?_ ⟨hok.1, hok.2.1, rfl, hok.2.2.2⟩ ⟨rfl, rfl, rfl⟩ fun _ => trivial
    · rw [hpc]
      exact Iff.rfl
    · rw [hpc]
      exact id
    · rw [Caller.Parked, hpc]
      simp
  case releasing =>
    refine h.release ?_ ⟨id, ?_⟩ ⟨hok.1, .inl ⟨hok.2.2.2, hok.2.2.1, .inl hok.2.1⟩⟩
      fun _ => trivial
    · rw [hpc]
      trivial
    · rw [hpc]
      exact id
  -- The caller that has its answer drops the guard, and nobody waits for it.
  case unlocking =>
    refine h.release ?_ ⟨id, ?_⟩ hok fun hx => ?_
    · rw [hpc]
      trivial
    · rw [hpc]
      exact id
    · rw [hpc] at hx
      exact hx
  case alerting =>
    -- The consumer thread is awake by now, whoever else is to notify it.
    have halerted := h.alerted
    have hwakes : s.consumer.alerted.wakes = s.consumer.wakes := by
      cases s.consumer <;> rfl
    refine halerted.stay (k := k) ?_ ?_ ⟨rfl, .inl rfl⟩ (fun hx => ?_) (fun hx => ?_) fun hx => ?_
    · change _ ↔ (s.caller k).pc.Holds
      rw [hpc]
      exact Iff.rfl
    · change Caller.Ok _ k s.consumer.alerted.wakes
      rw [hwakes]
      exact hok
    · have hx : s.consumer.alerted.wakes = some k := hx
      rw [hwakes] at hx
      rcases h.woken k hx with ⟨⟨_, hparked⟩, hanswered⟩
      exact ⟨⟨.inr rfl, hparked⟩, hanswered⟩
    · exact absurd hx (alerted_ne s.consumer)
    · have hrests := h.rests hx k
      rw [hpc] at hrests
      exact hrests.elim
  case asleep =>
    rcases hok with ⟨hsent, ⟨hwoken, _⟩ | ⟨hwoken, hanswered⟩⟩
    · exact absurd (hwoken.symm.trans hg) (by simp)
    refine h.alone ?_ ?_ ?_ ⟨hsent, hanswered⟩ ⟨rfl, rfl, rfl⟩ fun hx => ?_
    · rw [hpc]
      exact Iff.rfl
    · rw [hpc]
      exact id
    · rintro ⟨_, hx, _⟩
      rw [hwoken] at hx
      cases hx
    · rw [hpc] at hx
      exact hx
  -- Only the caller itself is at its slot from here on.
  case clearing =>
    refine h.alone ?_ ?_ ?_ hok ⟨rfl, rfl, rfl⟩ fun hx => ?_
    · rw [hpc]
      exact Iff.rfl
    · rw [hpc]
      exact id
    · rw [Caller.Parked, hpc]
      simp
    · rw [hpc] at hx
      exact hx
  case taking =>
    rcases hok with ⟨⟨hran, hasked, _⟩, hkept, hgiven, hout⟩
    refine h.alone ?_ ?_ ?_ ⟨hran, hkept, fun hx => absurd hx hasked, fun _ => ⟨?_, hout⟩⟩
      ⟨rfl, rfl, rfl⟩ fun hx => ?_
    · rw [hpc]
      exact Iff.rfl
    · rw [hpc]
      exact id
    · rw [Caller.Parked, hpc]
      simp
    · rw [hout]
      exact hgiven
    · rw [hpc] at hx
      exact hx

/-- The consumer thread goes on, and does something to one caller, which is parked. -/
theorem Inv.tends (h : Inv s) {p : Consumer K} {b : Bool} (hparked : (s.caller k).Parked)
    (hpc : c.pc = (s.caller k).pc) (hpast : c.ran = (s.caller k).ran ∧
      c.asked = (s.caller k).asked) (hok : c.Ok k p.wakes) (hholds : p.Holds ↔ s.consumer.Holds)
    (hother : ∀ k', k' ≠ k → (p.wakes = some k' ↔ s.consumer.wakes = some k'))
    (hwoken : p.wakes = some k → c.Parked ∧ c.Answered)
    (hleaves : p ≠ .leaving ∧ p ≠ .done ∧ p ≠ .waiting false) (hb : b = false) :
    Inv { s.set k c with consumer := p, broken := b } := by
  have hcaller : ∀ k', Function.update s.caller k c k' = if k' = k then c else s.caller k' :=
    fun k' => Function.update_apply ..
  -- The caller does not move, so it holds the mutex as little as before.
  refine
    { h with
      holds := fun k' => ?_
      thread := hholds.trans h.thread
      callers := fun k' => ?_
      woken := fun k' hk' => ?_
      served := fun k' => ?_
      executed := ?_
      alerts := fun hx => absurd hx hleaves.2.2
      rests := fun hx k' => ?_
      leaves := fun hx => (hx.elim hleaves.1 hleaves.2.1).elim
      joins := fun _ => hleaves.2.2
      intact := hb }
  · change (Function.update s.caller k c k').pc.Holds ↔ _
    rw [hcaller]
    split
    · next hk =>
        rw [hpc, hk]
        exact h.holds k
    · exact h.holds k'
  · change (Function.update s.caller k c k').Ok k' p.wakes
    rw [hcaller]
    split
    · next hk => exact hk ▸ hok
    · next hk =>
        have hk' := h.callers k'
        unfold Caller.Ok at hk' ⊢
        rw [hother k' hk]
        exact hk'
  · change (Function.update s.caller k c k').Parked ∧ (Function.update s.caller k c k').Answered
    rw [hcaller]
    split
    · next hk => exact hwoken (hk ▸ hk')
    · next hk => exact h.woken k' ((hother k' hk).mp hk')
  · change k' ∈ s.served ↔ (Function.update s.caller k c k').ran = true
    rw [hcaller]
    split
    · next hk =>
        rw [hpast.1, hk]
        exact h.served k
    · exact h.served k'
  · change s.executed = s.served.flatMap fun k' =>
      (Function.update s.caller k c k').asked.toList.map (k', ·)
    rw [h.executed]
    refine List.flatMap_congr fun k' _ => ?_
    rw [hcaller]
    split
    · next hk => rw [hpast.2, hk]
    · rfl
  · have hrests := h.rests hx k
    rcases hparked with ⟨hk | hk, _⟩ <;> rw [hk] at hrests <;> exact hrests.elim

/-- `progress` hands back a call that is completed. -/
theorem inv_progress (h : Inv s) (hpc : s.consumer = .progressing)
    (hkept : (s.caller k).kept = .completed) :
    Inv { s.set k { s.caller k with kept := .nothing } with consumer := .unlocking (some k) } := by
  have hok := h.callers k
  -- The consumer thread has the mutex, so that the caller has dropped its guard.
  have hparked : (s.caller k).Sent ∧ (s.caller k).Parked ∧ (s.caller k).given ≠ none ∧
      (s.caller k).out = (s.caller k).given := by
    have hfree : ¬ (s.caller k).pc.Holds := by
      rw [h.holds, h.thread.mp (by rw [hpc]; trivial)]
      rintro ⟨⟩
    unfold Caller.Ok at hok
    cases hk : (s.caller k).pc <;> rw [hk] at hok hfree
    case alerting | asleep =>
      rcases hok with ⟨hsent, ⟨hwoken, hsth, hx | ⟨⟨hx, _⟩, _⟩⟩ | ⟨_, hx, _⟩⟩
      · rcases hx with hx | ⟨_, hx⟩
        · exact absurd (hkept.symm.trans hx) (by simp)
        · exact ⟨hsent, ⟨by rw [hk]; simp, hwoken, hsth⟩, hx⟩
      · exact absurd (hkept.symm.trans hx) (by simp)
      · exact absurd (hkept.symm.trans hx) (by simp)
    case clearing | taking => exact absurd (hkept.symm.trans hok.2.1) (by simp)
    case returned => exact absurd (hkept.symm.trans hok.2.1) (by simp)
    case idle | locking => exact absurd (hkept.symm.trans hok.2.1) (by simp)
    all_goals exact absurd trivial hfree
  rcases hparked with ⟨hsent, hparked, hgiven, hout⟩
  have hwakes : s.consumer.wakes = none := by
    rw [hpc]
    rfl
  refine h.tends (p := .unlocking (some k)) hparked rfl ⟨rfl, rfl⟩ ?_ ?_ (fun k' hk' => ?_)
    (fun _ => ⟨hparked, rfl, hgiven, hout⟩) ⟨by simp, by simp, by simp⟩ h.intact
  · unfold Caller.Ok
    dsimp only
    rcases hparked with ⟨hk | hk, hwoken, hsth⟩ <;> rw [hk] <;>
      exact ⟨hsent, .inl ⟨hwoken, hsth, .inr ⟨⟨rfl, hgiven, hout⟩, rfl⟩⟩⟩
  · rw [hpc]
    exact Iff.rfl
  · rw [hwakes]
    exact iff_of_false (fun hx => hk' (Option.some.inj hx).symm) (by rintro ⟨⟩)

/-- A caller is woken. -/
theorem inv_notify (h : Inv s) (hpc : s.consumer = .notifying k) :
    Inv { s.notify k with consumer := .locking } := by
  have hwakes : s.consumer.wakes = some k := by
    rw [hpc]
    rfl
  -- Whom it wakes is parked and has its answer.
  rcases h.woken k hwakes with ⟨hparked, hanswered⟩
  have hok := h.callers k
  refine h.tends (p := .locking) hparked rfl ⟨rfl, rfl⟩ ?_ ?_ (fun k' hk' => ?_)
    (by rintro ⟨⟩) ⟨by simp, by simp, by simp⟩ ?_
  · unfold Caller.Ok at hok ⊢
    dsimp only
    rcases hparked with ⟨hk | hk, _⟩ <;> rw [hk] at hok ⊢ <;> exact ⟨hok.1, .inr ⟨rfl, hanswered⟩⟩
  · rw [hpc]
    exact Iff.rfl
  · rw [hwakes]
    exact iff_of_false (by rintro ⟨⟩) fun hx => hk' (Option.some.inj hx).symm
  · change (s.broken || !(s.caller k).sth) = false
    rw [h.intact, hparked.2.2]
    rfl

/-- A step of the consumer thread. -/
theorem inv_serve (h : Inv s) {a : Answers K Resp} (hg : s.consumer.CanServe s.owner)
    (ha : a.Honest fun k => (s.caller k).kept) : Inv (s.serve a) := by
  have hacquire : s.owner = .nobody → s.consumer.wakes = none →
      Inv { s with owner := .thread, consumer := .checking } := by
    intro ho hwakes
    refine h.goes ⟨iff_of_true trivial rfl, fun k => ?_⟩ (by rw [hwakes]; rfl) (by rintro ⟨⟩)
      (by rintro (⟨⟨⟩⟩ | ⟨⟨⟩⟩)) fun _ => by rintro ⟨⟩
    rw [ho]
    exact iff_of_false (by rintro ⟨⟩) (by rintro ⟨⟩)
  -- Nobody else has the mutex while the consumer thread has it.
  have hother : s.owner = .thread → ∀ k, (Owner.nobody : Owner K) = .caller k ↔
      s.owner = .caller k := by
    intro ho k
    rw [ho]
    exact iff_of_false (by rintro ⟨⟩) (by rintro ⟨⟩)
  have hthread := h.thread
  unfold State.serve
  -- The consumer thread's accesses in the order of its loop.
  cases hpc : s.consumer with
  | locking =>
      rw [hpc] at hg
      exact hacquire hg (by rw [hpc]; rfl)
  | waiting b =>
      rw [hpc] at hg
      cases b with
      | false => exact False.elim hg
      | true => exact hacquire hg (by rw [hpc]; rfl)
  | checking =>
      rw [hpc] at hthread
      have ho := hthread.mp trivial
      dsimp only
      split
      · next hfinished =>
          refine h.goes (o := s.owner) ⟨iff_of_true trivial ho, fun _ => Iff.rfl⟩
            (by rw [hpc]; rfl) (by rintro ⟨⟩) (fun _ => hfinished) fun _ => by rintro ⟨⟩
      · next hfinished =>
          split
          · refine h.goes (o := s.owner) ⟨iff_of_true trivial ho, fun _ => Iff.rfl⟩
              (by rw [hpc]; rfl) (by rintro ⟨⟩) (by rintro (⟨⟨⟩⟩ | ⟨⟨⟩⟩)) fun _ => by rintro ⟨⟩
          · next hactive =>
              refine h.goes ⟨iff_of_false id (by rintro ⟨⟩), hother ho⟩ (by rw [hpc]; rfl)
                (fun _ => ha.idle (by simpa using hactive)) (by rintro (⟨⟨⟩⟩ | ⟨⟨⟩⟩))
                fun hx => absurd (h.stops (.inr hx)) hfinished
  | progressing =>
      rw [hpc] at hthread
      dsimp only
      -- Progress answers a caller that was kept, or nobody.
      cases hprogress : a.progress with
      | none =>
          refine h.goes (o := s.owner) ⟨iff_of_true trivial (hthread.mp trivial),
            fun _ => Iff.rfl⟩ (by rw [hpc]; rfl) (by rintro ⟨⟩) (by rintro (⟨⟨⟩⟩ | ⟨⟨⟩⟩))
            fun _ => by rintro ⟨⟩
      | some k => exact inv_progress h hpc (ha.2 k hprogress)
  | unlocking ready =>
      rw [hpc] at hthread
      have ho := hthread.mp trivial
      cases ready with
      | none =>
          refine h.goes ⟨iff_of_false id (by rintro ⟨⟩), hother ho⟩ (by rw [hpc]; rfl)
            (by rintro ⟨⟩) (by rintro (⟨⟨⟩⟩ | ⟨⟨⟩⟩)) fun _ => by rintro ⟨⟩
      | some k =>
          refine h.goes ⟨iff_of_false id (by rintro ⟨⟩), hother ho⟩ (by rw [hpc]; rfl)
            (by rintro ⟨⟩) (by rintro (⟨⟨⟩⟩ | ⟨⟨⟩⟩)) fun _ => by rintro ⟨⟩
  | notifying k => exact inv_notify h hpc
  | leaving =>
      rw [hpc] at hthread
      refine h.goes ⟨iff_of_false id (by rintro ⟨⟩), hother (hthread.mp trivial)⟩
        (by rw [hpc]; rfl) (by rintro ⟨⟩) (fun _ => h.leaves (.inl hpc)) fun _ => by rintro ⟨⟩
  | done => exact h

omit [DecidableEq K] in
/-- A step of `drop`. -/
theorem inv_drop (h : Inv s) (hg : s.closing.CanDrop s) : Inv s.drop := by
  unfold State.drop
  -- `drop` takes the mutex, alerts the thread and joins it.
  cases hc : s.closing with
  | running =>
      rw [hc] at hg
      exact
        { h with
          rests := fun _ => hg
          finished := fun hx => absurd hc (h.finished hx)
          stops := by rintro (⟨⟨⟩⟩ | ⟨⟨⟩⟩)
          joins := by rintro ⟨⟩ }
  | locking =>
      exact
        { h with
          rests := fun _ => h.rests (by rw [hc]; simp)
          leaves := fun _ => rfl
          finished := fun _ => by simp
          stops := fun _ => rfl
          joins := by rintro ⟨⟩ }
  | alerting =>
      exact
        { h.alerted with
          rests := fun _ => h.rests (by rw [hc]; simp)
          finished := fun _ => by simp
          stops := fun _ => h.stops (.inl hc)
          joins := fun _ => alerted_ne s.consumer }
  | joining =>
      exact
        { h with
          rests := fun _ => h.rests (by rw [hc]; simp)
          finished := fun _ => by simp
          stops := by rintro (⟨⟨⟩⟩ | ⟨⟨⟩⟩)
          joins := by rintro ⟨⟩ }
  | closed => exact h

/-- Every step keeps the invariant. -/
theorem inv_next (h : Inv s) {a : Action K Req Resp} (hg : guard s a) : Inv (next s a) := by
  cases a with
  | call k r => exact inv_call h hg.1 hg.2 (some r)
  | withLock k => exact inv_call h hg.1 hg.2 none
  | step k a => exact inv_step h hg.1
  | serve a => exact inv_serve h hg.1 hg.2
  | spurious => exact h.alerted
  | complete k v => exact inv_complete h hg v
  | drop => exact inv_drop h hg

omit [DecidableEq K] in
/-- Who uses the object has the mutex. -/
theorem Inv.uses (h : Inv s) {a : Action K Req Resp} {u : Option K} (hg : guard s a)
    (hu : uses s a = some u) : s.owner = u.elim .thread .caller := by
  cases a with
  | call k r | withLock k | spurious | complete k v | drop => cases hu
  | step k a =>
      unfold OsDelegator.uses at hu
      dsimp only at hu
      split at hu
      case h_3 => cases hu
      all_goals
        rename_i hpc
        cases hu
        exact (h.holds k).mp (by rw [hpc]; trivial)
  | serve a =>
      unfold OsDelegator.uses at hu
      dsimp only at hu
      split at hu
      case h_3 => cases hu
      all_goals
        rename_i hpc
        cases hu
        exact h.thread.mp (by rw [hpc]; trivial)

theorem set_ne {x : K} (hx : x ≠ k) : (s.set k c).caller x = s.caller x :=
  Function.update_of_ne hx ..

/-- A caller that has returned is left alone. -/
theorem next_returned (h : Inv s) {x : K} {v : Option Resp} (hx : (s.caller x).pc = .returned v)
    {a : Action K Req Resp} (hg : guard s a) : (next s a).caller x = s.caller x := by
  have hfinal := h.callers x
  unfold Caller.Ok at hfinal
  rw [hx] at hfinal
  -- Whoever takes the step is somebody else.
  have hne : ∀ k, (s.caller k).pc ≠ .returned v → x ≠ k := by
    rintro k hk rfl
    exact hk hx
  cases a with
  | call k req | withLock k => exact set_ne (hne k (by rw [hg.1]; simp))
  | spurious => rfl
  | drop =>
      change s.drop.caller x = _
      unfold State.drop
      split <;> rfl
  | complete k v =>
      refine set_ne ?_
      rintro rfl
      have hkept : (s.caller x).kept = .deferred := hg
      rw [hfinal.2.1] at hkept
      cases hkept
  | step k a =>
      have hxk : x ≠ k := by
        rintro rfl
        have hstep := hg.1
        rw [hx] at hstep
        exact hstep
      change (s.step k a).caller x = _
      unfold State.step
      split <;> first | rfl | exact set_ne hxk
  | serve a =>
      change (s.serve a).caller x = _
      unfold State.serve
      cases hpc : s.consumer with
      | locking | waiting b | unlocking ready | leaving | done => rfl
      | checking =>
          dsimp only
          split
          · rfl
          · split <;> rfl
      -- `progress` answers a deferred call, and one that has returned is not.
      | progressing =>
          dsimp only
          cases hprogress : a.progress with
          | none => rfl
          | some k =>
              refine set_ne ?_
              rintro rfl
              have hkept : (s.caller x).kept = .completed := hg.2.2 x hprogress
              rw [hfinal.2.1] at hkept
              cases hkept
      -- The one that is woken is parked.
      | notifying k =>
          refine set_ne (hne k ?_)
          rcases (h.woken k (by rw [hpc]; rfl)).1 with ⟨hk | hk, _⟩ <;> rw [hk] <;> simp

theorem Inv.contract (h : Inv s) : Contract s where
  exclusive a b u v ha hb hu hv := by
    have hsame := (h.uses ha hu).symm.trans (h.uses hb hv)
    cases u <;> cases v <;> cases hsame <;> rfl
  intact := h.intact
  nodup := h.nodup
  executed := h.executed
  returned k v hpc := by
    have hok := h.callers k
    unfold Caller.Ok at hok
    rw [hpc] at hok
    exact ⟨(h.served k).mpr hok.1, hok.2⟩
  once k v a hpc hg := next_returned h hpc hg
  awake k hpc := by
    have hok := h.callers k
    unfold Caller.Ok at hok
    rw [hpc] at hok
    rcases hok.2 with ⟨_, _, hdeferred | ⟨_, hwakes⟩⟩ | ⟨hwoken, _⟩
    · have hkept : (s.caller k).kept ≠ .nothing := by
        rcases hdeferred with hx | ⟨hx, _⟩ <;> rw [hx] <;> simp
      refine .inr (.inr ⟨hkept, ?_, fun hdone => ?_⟩)
      · -- A deferred call is waited for by a thread that looks again, unless it sleeps.
        by_cases hwaiting : s.consumer = .waiting false
        · rcases h.alerts hwaiting with hall | halert
          · exact absurd (hall k) hkept
          · exact .inr halert
        · exact .inl hwaiting
      · have hrests := h.rests (h.finished (h.leaves (.inr hdone))) k
        rw [hpc] at hrests
        exact hrests
    · exact .inr (.inl hwakes)
    · exact .inl hwoken
  closes hclosing :=
    ⟨fun k => ⟨h.rests hclosing k, (h.callers k).rests (h.rests hclosing k)⟩, h.joins⟩

/-- The contract, in every state the delegator reaches. -/
theorem osDelegates (h : system.Reachable s) : Contract s :=
  (System.Reachable.induct (P := Inv) h (fun _ => inv_init) fun _ _ h hg => inv_next h hg).contract

/-- A delegator nobody has called. -/
def State.fresh : State Bool Nat Nat :=
  ⟨.nobody, .locking, false, .running,
    fun _ => ⟨none, false, false, none, none, .nothing, false, none, .idle⟩, false, [], []⟩

/-- The consumer thread sleeps, and a call is deferred; a closure runs while the call is
    completed, and the consumer thread wakes the caller. Then the delegator is dropped. -/
def delegated : List (Action Bool Nat Nat) :=
  [Action.serve ⟨false, none, none⟩, .serve ⟨false, none, none⟩, .call false 7] ++
  List.replicate 2 (Action.step false ⟨true, none, none⟩) ++
  List.replicate 3 (Action.step false ⟨true, none, none⟩) ++ [Action.withLock true] ++
  List.replicate 3 (Action.step true ⟨true, none, none⟩) ++ [Action.complete false 9] ++
  List.replicate 2 (Action.serve ⟨true, none, none⟩) ++ [Action.serve ⟨true, some false, none⟩] ++
  List.replicate 3 (Action.serve ⟨false, none, none⟩) ++
  List.replicate 3 (Action.step false ⟨false, none, none⟩) ++
  [Action.drop, .serve ⟨false, none, none⟩, .drop, .drop] ++
  List.replicate 3 (Action.serve ⟨false, none, none⟩) ++ [Action.drop]

/-- Both return, and the consumer thread has ended. -/
theorem osDelegates_delegated :
    let s := system.run State.fresh delegated
    (s.closing = .closed ∧ s.consumer = .done ∧ s.executed = [(false, 7)] ∧
      (s.caller false).pc = .returned (some 9) ∧ (s.caller true).pc = .returned none) ∧
      Contract s := by
  refine ⟨by decide +kernel, osDelegates (system.reachable_run delegated _ ?_ (by decide +kernel))⟩
  exact ⟨rfl, rfl, rfl, rfl, rfl, rfl, rfl, fun _ => ⟨rfl, rfl, rfl, rfl, rfl, rfl⟩⟩

end OsDelegator

end Delegate

end Cmpth

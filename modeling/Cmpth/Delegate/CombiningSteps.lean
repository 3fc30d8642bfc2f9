import Cmpth.Delegate.CombiningTurns

/-!
# The Steps of `CombiningDelegator`

Each step of a caller, from swapping the tail to letting the last caller go, keeps
the invariant.

## Theorems

* `inv_enqueue`: A caller swaps the tail.
* `inv_link`: A caller links its node behind the one before it.
* `inv_release`: The holder exchanges the tail.
* `inv_leave`: The holder leaves a node and lets its caller go.
* `inv_progress`: The consumer hands back a call.
* `inv_drain`: A step of the holder's loop.
* `place_append`, `History.nodup_waiting`, `pair_setPc`: The queue as it grows, and steps of two
  callers.
* `Inv.cur_ran`, `Inv.cur_notMem`, `Inv.queue`: The node the holder is at, and the queue behind it.
* `Inv.waiting`, `Inv.mem_of_parked`, `Inv.prev`, `Inv.slept`, `Inv.fresh`, `Inv.of_kept`: The
  callers that wait or sleep.
* `notify_call`, `notify_lock`, `Inv.letGo`, `inv_letGo`: A caller is let go.
* `inv_stage`, `inv_own`, `inv_runNext`, `Caller.Ok.complete`: Steps of the holder and of the
  consumer.
-/

namespace Cmpth

namespace Delegate

namespace Combining

variable {K Req Resp : Type*} [DecidableEq K]

section

variable {s s' : State K Req Resp} {u : List K} {k : K} {c : Caller K Req Resp}

omit [DecidableEq K] in
/-- A caller swaps the tail behind the holder. -/
theorem place_append {pc : Pc K Resp} {t k' : K} (h : s.Place k' u pc) (hne : k' ≠ k)
    (hcur : ∀ f stage, pc = .draining f stage → f.cur ≠ k) (hku : k ∉ u) (ht : s.tail = some t)
    (htail : s'.tail = some k) (hrest : ∀ x, x ≠ k → s'.caller x = s.caller x)
    (hnext : (s'.caller k).next = none) (hpc : (s'.caller k).pc = .swapped t) :
    s'.Place k' (u ++ [k]) pc := by
  -- The queue of the holder gets longer at its end, and its nodes stay.
  have happend : ∀ {c w}, Queue s.caller s.tail c w → k ∉ c :: w →
      Queue s'.caller s'.tail c (w ++ [k]) := by
    intro c w hq hk
    rw [ht] at hq
    rw [htail]
    exact hq.append hk hrest hnext hpc
  cases pc
  case executing | inside =>
    rcases h with ⟨w, rfl, hq⟩
    exact ⟨w ++ [k], rfl, happend hq hku⟩
  case draining f stage =>
    rcases h with ⟨hq, hlinking, hleaving⟩
    have hcur := hcur f stage rfl
    refine ⟨happend hq fun hx => ?_, fun _ => by simp, fun n lock hst => ?_⟩
    · rcases List.mem_cons.mp hx with hx | hx
      · exact hcur hx.symm
      · exact hku hx
    · rw [hrest f.cur hcur]
      exact hleaving n lock hst
  -- The caller that is served sleeps, so it is not the new one.
  case running own n | handing own n | resting n =>
    rcases h with ⟨w, rfl, hq, hpcn, hasked⟩
    have hnk : n ≠ k := by
      rintro rfl
      exact hku List.mem_cons_self
    refine ⟨w ++ [k], rfl, happend hq hku, ?_, ?_⟩ <;> rw [hrest n hnk]
    · exact hpcn
    · exact hasked
  all_goals trivial

/-- A call begins. -/
theorem inv_enqueue (h : Inv s u) (hpc : (s.caller k).pc = .idle) (asked : Option Req) :
    Inv (s.enqueue k asked) (u ++ [k]) := by
  have hidle := h.ok k
  unfold Caller.Ok at hidle
  rw [hpc] at hidle
  rcases hidle with ⟨hran, hkept, hwoken, hvalue⟩
  -- A caller that begins is not in the history.
  have hnew : k ∉ s.order := fun hx => absurd hpc ((h.history.known k).mp hx)
  have hku : k ∉ u := fun hx => hnew (by rw [h.history.order]; exact List.mem_append_right _ hx)
  let c : Caller K Req Resp :=
    { s.caller k with
      next := none
      asked := asked
      pc := ((s.enqueue k asked).caller k).pc }
  -- It finds the queue empty or not, and so it is the holder or waits.
  have hpcc : (∃ t, s.tail = some t ∧ c.pc = .swapped t) ∨
      s.tail = none ∧ (c.pc = .inside ∧ asked = none ∨ c.pc = .executing ∧ asked ≠ none) := by
    cases ht : s.tail with
    | some t => exact .inl ⟨t, rfl, by simp only [c, State.enqueue, set_self, ht]⟩
    | none =>
        refine .inr ⟨rfl, ?_⟩
        by_cases ha : asked = none
        · exact .inl ⟨by simp only [c, State.enqueue, set_self, ht, if_pos ha], ha⟩
        · exact .inr ⟨by simp only [c, State.enqueue, set_self, ht, if_neg ha], ha⟩
  have hself : (s.enqueue k asked).caller k = c := by
    simp only [c, State.enqueue, set_self]
  have hrest : ∀ x, x ≠ k → (s.enqueue k asked).caller x = s.caller x := fun x hx => set_ne hx
  have hall : ∀ {P : K → Caller K Req Resp → Prop}, P k c → (∀ r, r ≠ k → P r (s.caller r)) →
      ∀ r, P r ((s.enqueue k asked).caller r) := by
    intro P hk hr r
    by_cases hrk : r = k
    · rw [hrk, hself]
      exact hk
    · rw [hrest r hrk]
      exact hr r hrk
  have hawake : c.pc ≠ .idle ∧ c.pc ≠ .asleep ∧ c.pc.ref k = none ∧
      ∀ f stage, c.pc ≠ .draining f stage := by
    rcases hpcc with ⟨t, _, hx⟩ | ⟨_, ⟨hx, _⟩ | ⟨hx, _⟩⟩ <;> rw [hx] <;>
      exact ⟨(by simp), (by simp), rfl, (by simp)⟩
  -- Nobody refers to it yet.
  have hold : ∀ k' x, ((s.enqueue k asked).caller k').pc.ref k' = some x →
      (s.caller k').pc.ref k' = some x ∧ (s.enqueue k asked).caller k' = s.caller k' ∧
        (s.enqueue k asked).caller x = s.caller x := by
    intro k' x hx
    have hk' : k' ≠ k := by
      rintro rfl
      rw [hself, hawake.2.2.1] at hx
      cases hx
    rw [hrest k' hk'] at hx
    refine ⟨hx, hrest k' hk', hrest x ?_⟩
    rintro rfl
    rw [(h.refs.asleep k' x hx).1] at hpc
    cases hpc
  exact
    -- It is the last of the queue, and everybody else is as before.
    { ok := by
        refine hall (P := fun x d => d.Ok x) ?_ fun x _ => h.ok x
        unfold Caller.Ok
        rcases hpcc with ⟨t, _, hx⟩ | ⟨_, ⟨hx, ha⟩ | ⟨hx, ha⟩⟩ <;> rw [hx]
        · exact ⟨hran, hkept, hwoken, hvalue⟩
        · exact ⟨hran, hkept, ha⟩
        · exact ⟨hran, hkept, hwoken, hvalue, ha⟩
      history :=
        { order := by
            change s.order ++ [k] = s.served ++ (u ++ [k])
            rw [h.history.order, List.append_assoc]
          nodup := List.nodup_append.mpr ⟨h.history.nodup, List.nodup_singleton k, by
            intro a ha b hb hab
            rw [List.mem_singleton.mp hb] at hab
            rw [hab] at ha
            exact hnew ha⟩
          known := by
            refine hall (P := fun x d => x ∈ s.order ++ [k] ↔ d.pc ≠ .idle)
              (iff_of_true (by simp) hawake.1) fun x hx => ?_
            rw [List.mem_append, List.mem_singleton, ← h.history.known x]
            simp only [hx, or_false]
          ran := hall (P := fun x d => x ∈ s.served ↔ d.ran = true) (h.history.ran k)
            fun x _ => h.history.ran x
          executed := by
            change s.executed = requests (s.enqueue k asked).caller s.served
            rw [h.history.executed]
            refine (requests_congr fun x hx => ?_).symm
            rw [hrest x]
            rintro rfl
            exact hnew (by rw [h.history.order]; exact List.mem_append_left _ hx) }
      lock := by
        refine h.lock.update k (fun x hx => by rw [hrest x hx]) ?_
        rw [hself]
        rcases hpcc with ⟨t, ht, hx⟩ | ⟨ht, hx⟩
        · refine .inl ⟨by rw [ht]; rfl, ?_⟩
          rw [hx, hpc]
          exact Iff.rfl
        · refine .inr (.inl ⟨by rw [ht]; rfl, rfl, ?_⟩)
          rcases hx with ⟨hx, _⟩ | ⟨hx, _⟩ <;> rw [hx] <;> trivial
      free := by rintro ⟨⟩
      settled := fun x f hf y => by
        have hxk : x ≠ k := by
          rintro rfl
          rw [hself] at hf
          exact hawake.2.2.2 f _ hf
        rw [hrest x hxk] at hf
        exact hall (P := fun _ d => d.kept = .nothing) hkept (fun y _ => h.settled x f hf y) y
      place := by
        refine hall (P := fun x d => d.pc.Holds → (s.enqueue k asked).Place x (u ++ [k]) d.pc)
          (fun hx => ?_) fun x hx hholds => ?_
        · -- Nobody has the lock, so nobody waits.
          rcases hpcc with ⟨t, _, hpcc⟩ | ⟨ht, hpcc⟩
          · rw [hpcc] at hx
            exact hx.elim
          · rw [(h.free ht).1]
            have hq : Queue (s.enqueue k asked).caller (s.enqueue k asked).tail k [] :=
              ⟨by rw [hself], rfl⟩
            rcases hpcc with ⟨hpcc, _⟩ | ⟨hpcc, _⟩ <;> rw [hpcc] <;> exact ⟨[], rfl, hq⟩
        · rcases Option.isSome_iff_exists.mp (h.lock.taken x hholds) with ⟨t, ht⟩
          have hswapped : c.pc = .swapped t := by
            simp only [c, State.enqueue, set_self, ht]
          refine place_append (h.place x hholds) hx (fun f stage hf => ?_) hku ht rfl hrest
            (by rw [hself]) (by rw [hself, hswapped])
          rintro rfl
          -- The node the holder is at has had its turn.
          by_cases hcur : f.cur = x
          · exact hx hcur.symm
          · have hasleep := (h.refs.asleep x f.cur (by rw [hf]; exact if_neg hcur)).1
            rw [hasleep] at hpc
            cases hpc
      refs :=
        { asleep := fun k' x hx => by
            rw [(hold k' x hx).2.2]
            exact h.refs.asleep k' x (hold k' x hx).1
          wake := fun k' x hx => by
            rw [(hold k' x hx).2.2, (hold k' x hx).2.1]
            exact h.refs.wake k' x (hold k' x hx).1
          inj := fun k₁ k₂ x h₁ h₂ => h.refs.inj k₁ k₂ x (hold k₁ x h₁).1 (hold k₂ x h₂).1
          covered := by
            refine hall (P := fun x d => d.pc = .asleep → d.ran = true → d.kept = .nothing →
              ∃ k', ((s.enqueue k asked).caller k').pc.ref k' = some x)
              (fun hx => absurd hx hawake.2.1) fun x _ hxpc hxran hxkept => ?_
            rcases h.refs.covered x hxpc hxran hxkept with ⟨k', hk'⟩
            refine ⟨k', ?_⟩
            rw [hrest]
            · exact hk'
            · rintro rfl
              rw [hpc] at hk'
              cases hk' } }

omit [DecidableEq K] in
theorem History.nodup_waiting (h : History s u) : u.Nodup := by
  have hnodup := h.nodup
  rw [h.order] at hnodup
  exact (List.nodup_append.mp hnodup).2.1

/-- The node the holder is at has had its turn. -/
theorem Inv.cur_ran (h : Inv s u) {f : Frame K} {stage : Stage K}
    (hpc : (s.caller k).pc = .draining f stage) : (s.caller f.cur).ran = true := by
  by_cases hcur : f.cur = k
  · have hok := h.ok k
    unfold Caller.Ok at hok
    rw [hpc] at hok
    rw [hcur]
    exact hok.1.1
  · exact (h.refs.asleep k f.cur (by rw [hpc]; exact if_neg hcur)).2

theorem Inv.cur_notMem (h : Inv s u) {f : Frame K} {stage : Stage K}
    (hpc : (s.caller k).pc = .draining f stage) : f.cur ∉ u := fun hx => by
  have hnot := h.history.not_ran hx
  rw [h.cur_ran hpc] at hnot
  cases hnot

/-- The queue, from the node that the holder is at or comes to next. -/
theorem Inv.queue (h : Inv s u) {k' : K} (hk' : (s.caller k').pc.Holds) :
    ∃ c w, Queue s.caller s.tail c w ∧ (c :: w).Nodup ∧ (∀ x ∈ u, x = c ∨ x ∈ w) ∧
      ((s.caller c).pc.Holds ∨ (s.caller c).pc = .asleep) := by
  have hplace := h.place k' hk'
  -- Whoever holds is at the node of its own, at a later one, or just before one.
  cases hpc : (s.caller k').pc <;> rw [hpc] at hplace hk'
  case executing | inside =>
    rcases hplace with ⟨w, rfl, hq⟩
    have hholds : (s.caller k').pc.Holds := by
      rw [hpc]
      trivial
    exact ⟨k', w, hq, h.history.nodup_waiting, fun x hx => List.mem_cons.mp hx, .inl hholds⟩
  case draining f stage =>
    have hcur : (s.caller f.cur).pc.Holds ∨ (s.caller f.cur).pc = .asleep := by
      by_cases hx : f.cur = k'
      · rw [hx, hpc]
        exact .inl trivial
      · exact .inr (h.refs.asleep k' f.cur (by rw [hpc]; exact if_neg hx)).1
    exact ⟨f.cur, u, hplace.1, List.nodup_cons.mpr ⟨h.cur_notMem hpc, h.history.nodup_waiting⟩,
      fun _ => .inr, hcur⟩
  case running own n | handing own n | resting n =>
    rcases hplace with ⟨w, rfl, hq, hpcn, _⟩
    exact ⟨n, w, hq, h.history.nodup_waiting, fun x hx => List.mem_cons.mp hx, .inr hpcn⟩
  all_goals exact hk'.elim

/-- A caller that waits has a predecessor, and somebody has the lock. -/
theorem Inv.waiting (h : Inv s u) (hk : k ∈ u) : ∃ k', (s.caller k').pc.Holds := by
  refine h.lock.held ?_
  cases ht : s.tail with
  | some t => rfl
  | none =>
      rw [(h.free ht).1] at hk
      exact absurd hk List.not_mem_nil

/-- Whoever is about to link its node waits. -/
theorem Inv.mem_of_parked (h : Inv s u) {prev : K} (hpc : (s.caller k).pc = .parked prev) :
    k ∈ u := by
  have hok := h.ok k
  unfold Caller.Ok at hok
  rw [hpc] at hok
  have horder := (h.history.known k).mpr (by rw [hpc]; nofun)
  rw [h.history.order] at horder
  rcases List.mem_append.mp horder with hx | hx
  · have hran := (h.history.ran k).mp hx
    rw [hok.1] at hran
    cases hran
  · exact hx

/-- The predecessor of a caller that is about to link its node is there, and has
    no link. -/
theorem Inv.prev (h : Inv s u) {prev : K} (hpc : (s.caller k).pc = .parked prev) :
    prev ≠ k ∧ (s.caller prev).next = none ∧
      ((s.caller prev).pc.Holds ∨ (s.caller prev).pc = .asleep ∨
        ∃ a, (s.caller prev).pc = .swapped a ∨ (s.caller prev).pc = .parked a) := by
  have hku := h.mem_of_parked hpc
  -- Somebody holds while a caller is parked, and the queue goes on from there.
  rcases h.waiting hku with ⟨k', hk'⟩
  rcases h.queue hk' with ⟨c, w, hq, hnodup, hmem, hc⟩
  have hkw : k ∈ w := by
    refine (hmem k hku).resolve_left ?_
    rintro rfl
    rw [hpc] at hc
    rcases hc with hx | hx
    · exact hx
    · cases hx
  rcases hq.prev_mem hnodup hkw hpc with ⟨hprev, hne, hnone⟩
  refine ⟨hne, hnone, ?_⟩
  rcases List.mem_cons.mp hprev with rfl | hprev
  · exact hc.imp_right .inl
  · rcases hq.waits hprev with hx | ⟨a, _, hx⟩
    · exact .inr (.inl hx)
    · exact .inr (.inr ⟨a, hx⟩)

/-- A caller links its node, and sleeps. -/
theorem inv_link (h : Inv s u) {prev : K} (hpc : (s.caller k).pc = .parked prev)
    (hp : Pair s s' k { s.caller k with pc := .asleep } prev
      { s.caller prev with next := some (k, (s.caller k).asked.isNone) })
    (htail : s'.tail = s.tail) (horder : s'.order = s.order) (hserved : s'.served = s.served)
    (hexecuted : s'.executed = s.executed) : Inv s' u := by
  have hku := h.mem_of_parked hpc
  -- The one before it waits for a successor, and is not asleep on behalf of anybody.
  rcases h.prev hpc with ⟨hne, hnone, hprevpc⟩
  have hok := h.ok k
  unfold Caller.Ok at hok
  rw [hpc] at hok
  rcases hok with ⟨hran, hkept, hwoken, hvalue, hsth, hreq⟩
  -- Only its own pc changes, and the link of the one before it.
  have hpcs : ∀ x, x ≠ k → (s'.caller x).pc = (s.caller x).pc := by
    intro x hx
    by_cases hxp : x = prev
    · rw [hxp, hp.snd]
    · rw [hp.rest x hx hxp]
  have hasked : ∀ x, (s'.caller x).asked = (s.caller x).asked :=
    hp.all (P := fun x d => d.asked = (s.caller x).asked) rfl rfl fun _ _ _ => rfl
  have hqueue : ∀ {c w}, Queue s.caller s.tail c w → (c :: w).Nodup → k ∈ w →
      Queue s'.caller s'.tail c w := by
    intro c w hq hnodup hkw
    rw [htail]
    refine hq.link hnodup hkw hpc ?_ ?_ hasked (fun a ha => ?_) hpcs
    · rw [hp.snd]
    · rw [hp.fst]
    · by_cases hak : a = k
      · rw [hak, hp.fst]
      · rw [hp.rest a hak ha]
  have hrest : ∀ x, (s'.caller x).ran = (s.caller x).ran ∧ (s'.caller x).kept = (s.caller x).kept :=
    hp.all (P := fun x d => d.ran = (s.caller x).ran ∧ d.kept = (s.caller x).kept) ⟨rfl, rfl⟩
      ⟨rfl, rfl⟩ fun _ _ _ => ⟨rfl, rfl⟩
  -- What others refer to is asleep, and was neither of the two.
  have hrefs : ∀ k' x, (s'.caller k').pc.ref k' = some x →
      k' ≠ k ∧ x ≠ k ∧ (s.caller k').pc.ref k' = some x := by
    intro k' x hx
    have hk' : k' ≠ k := by
      rintro rfl
      rw [hp.fst] at hx
      cases hx
    rw [hpcs k' hk'] at hx
    refine ⟨hk', ?_, hx⟩
    rintro rfl
    rw [(h.refs.asleep k' x hx).2] at hran
    cases hran
  exact
    -- The queue is the same with one more link filled in.
    { ok := by
        refine hp.all (P := fun x d => d.Ok x) ?_ (h.ok prev) fun x _ _ => h.ok x
        refine ⟨hwoken, hvalue, hsth, fun _ => ⟨hkept, hreq⟩, fun hx => ?_⟩
        have hx : (s.caller k).ran = true := hx
        rw [hran] at hx
        cases hx
      history := by
        refine h.history.congr horder hserved hexecuted (fun x => ?_) (fun x => (hrest x).1) hasked
        by_cases hx : x = k
        · rw [hx, hp.fst, hpc]
          exact iff_of_false nofun nofun
        · rw [hpcs x hx]
      lock := by
        rw [htail]
        refine h.lock.update k (fun x hx => by rw [hpcs x hx]) (.inl ⟨rfl, ?_⟩)
        rw [hp.fst, hpc]
        exact Iff.rfl
      free := fun ht => by
        rw [htail] at ht
        exact ⟨(h.free ht).1, fun x => by rw [(hrest x).2]; exact (h.free ht).2 x⟩
      settled := fun x f hf y => by
        rw [(hrest y).2]
        have hx : x ≠ k := by
          rintro rfl
          rw [hp.fst] at hf
          cases hf
        rw [hpcs x hx] at hf
        exact h.settled x f hf y
      place := fun x hx => by
        have hxk : x ≠ k := by
          rintro rfl
          rw [hp.fst] at hx
          exact hx
        rw [hpcs x hxk] at hx ⊢
        have hplace := h.place x hx
        cases hpcx : (s.caller x).pc <;> rw [hpcx] at hplace hx
        case executing | inside =>
          rcases hplace with ⟨w, rfl, hq⟩
          exact ⟨w, rfl, hqueue hq h.history.nodup_waiting
            ((List.mem_cons.mp hku).resolve_left (Ne.symm hxk))⟩
        case draining f stage =>
          rcases hplace with ⟨hq, hlinking, hleaving⟩
          have hnodup := List.nodup_cons.mpr ⟨h.cur_notMem hpcx, h.history.nodup_waiting⟩
          refine ⟨hqueue hq hnodup hku, hlinking, fun n lock hst => ?_⟩
          -- The node that the holder is at has a link already.
          have hlink := hleaving n lock hst
          have hcur : f.cur ≠ prev := by
            rintro rfl
            rw [hnone] at hlink
            cases hlink
          have hcurk : f.cur ≠ k := by
            rintro rfl
            exact h.cur_notMem hpcx hku
          rw [hp.rest f.cur hcurk hcur]
          exact hlink
        case running own n | handing own n | resting n =>
          rcases hplace with ⟨w, rfl, hq, hpcn, haskedn⟩
          have hnk : n ≠ k := by
            rintro rfl
            rw [hpc] at hpcn
            cases hpcn
          refine ⟨w, rfl, hqueue hq h.history.nodup_waiting
            ((List.mem_cons.mp hku).resolve_left (Ne.symm hnk)), ?_, ?_⟩
          · rw [hpcs n hnk]
            exact hpcn
          · rw [hasked]
            exact haskedn
        all_goals exact hx.elim
      refs :=
        { asleep := fun k' x hx => by
            rcases hrefs k' x hx with ⟨_, hxk, hx⟩
            rw [hpcs x hxk, (hrest x).1]
            exact h.refs.asleep k' x hx
          wake := fun k' x hx => by
            rcases hrefs k' x hx with ⟨hk', hxk, hx⟩
            rw [(hrest x).2, hpcs k' hk']
            exact h.refs.wake k' x hx
          inj := fun k₁ k₂ x h₁ h₂ => h.refs.inj k₁ k₂ x (hrefs k₁ x h₁).2.2 (hrefs k₂ x h₂).2.2
          covered := fun x hxpc hxran hxkept => by
            rw [(hrest x).1] at hxran
            rw [(hrest x).2] at hxkept
            have hxk : x ≠ k := by
              rintro rfl
              rw [hran] at hxran
              cases hxran
            rw [hpcs x hxk] at hxpc
            rcases h.refs.covered x hxpc hxran hxkept with ⟨k', hk'⟩
            refine ⟨k', ?_⟩
            rw [hpcs]
            · exact hk'
            · rintro rfl
              rw [hpc] at hk'
              cases hk' } }

/-- The holder releases the lock. -/
theorem inv_release (h : Inv s u) {f : Frame K} (hpc : (s.caller k).pc = .draining f .releasing)
    (ht : s.tail = some f.cur) :
    Inv { s.setPc k (.released f.wake) with tail := none } u := by
  have hok := h.ok k
  unfold Caller.Ok at hok
  rw [hpc] at hok
  rcases hok with ⟨hown, hframe, hreleasing⟩
  have hkept := h.settled k f hpc
  have hplace := h.place k (by rw [hpc]; trivial)
  rw [hpc] at hplace
  have hempty : u = [] := by
    have hq := hplace.1
    rw [ht] at hq
    exact hq.alone (h.cur_notMem hpc)
  -- Nothing is deferred, so that the caller of the last node is to be let go.
  have href : (Pc.released f.wake : Pc K Resp).ref k = (s.caller k).pc.ref k := by
    rw [hpc]
    change f.wake = if f.cur = k then none else some f.cur
    by_cases hcur : f.cur = k
    · rw [if_pos hcur]
      exact hframe.1 hcur
    · rw [if_neg hcur]
      have hx := (h.refs.wake k f.cur (by rw [hpc]; exact if_neg hcur)).mp (hkept f.cur)
      rw [hpc] at hx
      exact hx
  have hrefs : Refs (s.setPc k (.released f.wake)) := by
    refine refs_move h.refs rfl ?_ nofun (fun r hr => ?_) fun r hr _ => ?_
    · rw [hpc]
      exact iff_of_false nofun nofun
    · refine ⟨href ▸ hr, ?_⟩
      rw [hpc]
      rfl
    · exact href.trans hr
  exact
    { ok := set_cases (P := fun x d => d.Ok x) ⟨hown.1, hown.2.2.2 (hreleasing rfl)⟩
        fun x _ => h.ok x
      history := by
        refine h.history.congr rfl rfl rfl ?_ ?_ ?_
        · refine set_cases (P := fun x d => d.pc = .idle ↔ (s.caller x).pc = .idle) ?_
            fun _ _ => Iff.rfl
          rw [hpc]
          exact iff_of_false nofun nofun
        · exact set_cases (P := fun x d => d.ran = (s.caller x).ran) rfl fun _ _ => rfl
        · exact set_cases (P := fun x d => d.asked = (s.caller x).asked) rfl fun _ _ => rfl
      lock := by
        refine h.lock.update k (fun x hx => ?_) (.inr (.inr ⟨?_, ?_, rfl⟩))
        · change ((s.setPc k _).caller x).pc.Holds ↔ _
          rw [State.setPc, set_ne hx]
        · rw [hpc]
          trivial
        · change ¬ ((s.setPc k _).caller k).pc.Holds
          rw [State.setPc, set_self]
          exact id
      free := fun _ => ⟨hempty, set_cases (P := fun _ d => d.kept = .nothing) (hkept k)
        fun x _ => hkept x⟩
      settled := fun _ _ _ => set_cases (P := fun _ d => d.kept = .nothing) (hkept k)
        fun x _ => hkept x
      place := fun x hx => by
        -- Nobody has the lock.
        have hnone : x = k := by
          by_contra hxk
          have hx : ((s.setPc k (.released f.wake)).caller x).pc.Holds := hx
          rw [State.setPc, set_ne hxk] at hx
          exact hxk (h.lock.one x k hx (by rw [hpc]; trivial))
        have hx : ((s.setPc k (.released f.wake)).caller x).pc.Holds := hx
        rw [hnone, State.setPc, set_self] at hx
        exact hx.elim
      refs := ⟨hrefs.asleep, hrefs.wake, hrefs.inj, hrefs.covered⟩ }

theorem pair_setPc {r : K} {d : Caller K Req Resp} {pc : Pc K Resp} (hne : r ≠ k) :
    Pair s ((s.set r d).setPc k pc) k { s.caller k with pc := pc } r d where
  fst := by
    rw [State.setPc, set_self, set_ne (Ne.symm hne)]
  snd := by
    rw [State.setPc, set_ne hne, set_self]
  rest := fun x hxk hxr => by
    rw [State.setPc, set_ne hxk, set_ne hxr]

/-- A caller that sleeps and has had its turn has its response, or waits for the
    consumer. -/
theorem Inv.slept (h : Inv s u) {r : K} (hpc : (s.caller r).pc = .asleep)
    (hran : (s.caller r).ran = true) :
    (s.caller r).sth = true ∧ (s.caller r).asked ≠ none ∧
      ((s.caller r).Deferred ∨ (s.caller r).Final) := by
  have hok := h.ok r
  unfold Caller.Ok at hok
  rw [hpc] at hok
  exact ⟨hok.2.2.1, hok.2.2.2.2 hran⟩

/-- A caller that sleeps and waits for its turn has filled in its node. -/
theorem Inv.fresh (h : Inv s u) {r : K} (hpc : (s.caller r).pc = .asleep)
    (hran : (s.caller r).ran = false) :
    (s.caller r).sth = true ∧ (s.caller r).woken = false ∧ (s.caller r).value = none ∧
      (s.caller r).kept = .nothing ∧ (s.caller r).req = (s.caller r).asked := by
  have hok := h.ok r
  unfold Caller.Ok at hok
  rw [hpc] at hok
  exact ⟨hok.2.2.1, hok.1, hok.2.1, hok.2.2.2.1 hran⟩

/-- Waking a caller of `call`. -/
theorem notify_call {r : K} (hsth : (s.caller r).sth = true) (hasked : (s.caller r).asked ≠ none) :
    s.notify r = s.set r { s.caller r with sth := false, woken := true, pc := .returning } := by
  rw [State.notify, if_pos hsth, if_neg hasked]

/-- Waking a caller of `with_lock`. -/
theorem notify_lock {r : K} (hsth : (s.caller r).sth = true) (hasked : (s.caller r).asked = none) :
    s.notify r = s.set r { s.caller r with sth := false, woken := true, pc := .inside } := by
  rw [State.notify, if_pos hsth, if_pos hasked]

/-- The holder goes on in the loop. -/
theorem inv_stage (h : Inv s u) {f : Frame K} {stage : Stage K}
    (hpc : (s.caller k).pc = .draining f stage) (stage' : Stage K)
    (hreleasing : stage' = .releasing → f.own = false ∧ ∀ r, (s.caller r).kept = .nothing)
    (hlinking : stage' = .linking → u ≠ [])
    (hleaving : ∀ n lock, stage' = .leaving n lock → (s.caller f.cur).next = some (n, lock)) :
    Inv (s.setPc k (.draining f stage')) u := by
  have hok := h.ok k
  unfold Caller.Ok at hok
  rw [hpc] at hok
  have hplace := h.place k (by rw [hpc]; trivial)
  rw [hpc] at hplace
  -- The holder has had its turn, so it does not wait.
  have hku : k ∉ u := fun hx => by
    have hnot := h.history.not_ran hx
    rw [hok.1.1] at hnot
    cases hnot
  refine inv_move h ⟨hok.1, hok.2.1, fun hst => (hreleasing hst).1⟩
    ⟨rfl, rfl, rfl, id, ?_, ?_⟩ ?_ nofun (fun hx => absurd hx hku) ?_ ?_ (fun g hg => ?_)
    fun _ => ⟨hplace.1, hlinking, hleaving⟩
  · rw [hpc]
    exact iff_of_false nofun nofun
  · rw [hpc]
    exact Iff.rfl
  · rw [hpc]
    exact iff_of_false nofun nofun
  · rw [hpc]
    exact fun _ hr => ⟨hr, rfl⟩
  · rw [hpc]
    exact fun _ hr _ => hr
  · cases hg
    exact (hreleasing rfl).2

/-- Whoever is to be let go sleeps, and finds its response. -/
theorem Inv.letGo (h : Inv s u) {r : K} (href : (s.caller k).pc.ref k = some r)
    (hwake : (s.caller k).pc.wake = some r) :
    r ≠ k ∧ (s.caller r).pc = .asleep ∧ (s.caller r).ran = true ∧ (s.caller r).wake.Final ∧
      s.notify r = s.set r (s.caller r).wake := by
  rcases h.refs.asleep k r href with ⟨hpcr, hranr⟩
  have hkept := (h.refs.wake k r href).mpr hwake
  rcases h.slept hpcr hranr with ⟨hsth, hasked, hd⟩
  -- Nothing is kept for it, so that its call has completed.
  have hfinal : (s.caller r).Final := by
    rcases hd with ⟨_, _, hx | ⟨hx, _⟩⟩ | hd
    · rw [hkept] at hx
      cases hx
    · rw [hkept] at hx
      cases hx
    · exact hd
  refine ⟨?_, hpcr, hranr, ⟨rfl, hfinal.2⟩, ?_⟩
  · rintro rfl
    rw [hpcr] at href
    cases href
  · rw [notify_call hsth hasked]
    unfold Caller.wake
    rw [← hkept]

/-- The holder leaves a node, whose caller may return. -/
theorem inv_leave (h : Inv s u) {f : Frame K} {n : K} {lock : Bool}
    (hpc : (s.caller k).pc = .draining f (.leaving n lock)) :
    Inv ((s.notifyAll f.wake).setPc k
      (if lock = true then .handing f.own n else .running f.own n)) u := by
  have hok := h.ok k
  unfold Caller.Ok at hok
  rw [hpc] at hok
  rcases hok with ⟨hown, hframe, _⟩
  have hplace := h.place k (by rw [hpc]; trivial)
  rw [hpc] at hplace
  rcases hplace with ⟨hq, _, hlink⟩
  rcases hq.of_next (hlink n lock rfl) with ⟨w, hu, hlock, hpcn, hqn⟩
  -- The holder itself has run, so the one that goes on is another.
  have hku : k ∉ u := fun hx => by
    have hnot := h.history.not_ran hx
    rw [hown.1] at hnot
    cases hnot
  -- The holder is about to run the request of the successor, or to hand it the lock.
  generalize hpc' : (if lock = true then .handing f.own n else .running f.own n : Pc K Resp) = pc'
  have hnew : pc'.Holds ∧ pc'.ref k = none ∧ pc' ≠ .idle ∧ pc' ≠ .asleep ∧
      (∀ g, pc' ≠ .draining g .releasing) ∧ Caller.Ok k { s.caller k with pc := pc' } ∧
      s.Place k u pc' := by
    cases lock with
    | true =>
        rw [if_pos rfl] at hpc'
        subst hpc'
        exact ⟨trivial, rfl, nofun, nofun, nofun, hown, w, hu, hqn, hpcn,
          Option.isNone_iff_eq_none.mp hlock.symm⟩
    | false =>
        rw [if_neg Bool.false_ne_true] at hpc'
        subst hpc'
        refine ⟨trivial, rfl, nofun, nofun, nofun, hown, w, hu, hqn, hpcn, fun hx => ?_⟩
        rw [hx] at hlock
        cases hlock
  rcases hnew with ⟨hholds, hrefk, hidle, hawake, hsettled, hokk, hplace⟩
  have hsteady : Steady (s.caller k) { s.caller k with pc := pc' } := by
    refine ⟨rfl, rfl, rfl, id, iff_of_false hidle ?_, iff_of_true hholds ?_⟩ <;> rw [hpc]
    · nofun
    · trivial
  have hnoref : ∀ {x} {p : Prop}, pc'.ref k = some x → p := fun hx => by
    rw [hrefk] at hx
    cases hx
  cases hwake : f.wake with
  | none =>
      refine inv_move h hokk hsteady (iff_of_false hawake ?_) (fun hx => absurd hx hawake)
        (fun hx => absurd hx hku) (fun x hx => hnoref hx) (fun x hx hkept => ?_)
        (fun g hg => absurd hg (hsettled g)) fun _ => hplace
      · change ¬ (s.caller k).pc = .asleep
        rw [hpc]
        nofun
      · have hx' := (h.refs.wake k x hx).mp hkept
        rw [hpc] at hx'
        exact absurd (hwake.symm.trans hx') nofun
  | some r =>
      -- Whom it wakes before it leaves is the one that it served last.
      have hcur : r = f.cur := hframe.2 r hwake
      have href : (s.caller k).pc.ref k = some r := by
        rw [hpc, hcur]
        refine if_neg fun hx => ?_
        rw [hframe.1 hx] at hwake
        cases hwake
      rcases h.letGo href (by rw [hpc]; exact hwake) with ⟨hrk, hpcr, hranr, hfinal, hnotify⟩
      rw [State.notifyAll, hnotify]
      refine inv_wake h (pair_setPc hrk) rfl rfl rfl rfl hpcr hranr hfinal hokk hsteady
        hown.1 hawake ?_ (fun x hx => hnoref hx) (fun x hx hx' => ?_) (fun k' hk' hx => ?_)
        (fun g hg => absurd hg (hsettled g)) fun _ => hplace
      · rw [hpc]
        nofun
      · rw [href] at hx'
        exact absurd (Option.some.inj hx').symm hx
      · exact hk' (h.refs.inj k' k r hx href)

/-- After the release, the last caller is let go. -/
theorem inv_letGo (h : Inv s u) {wake : Option K} (hpc : (s.caller k).pc = .released wake) :
    Inv ((s.notifyAll wake).setPc k .returning) u := by
  have hok := h.ok k
  unfold Caller.Ok at hok
  rw [hpc] at hok
  have hku : k ∉ u := fun hx => by
    have hnot := h.history.not_ran hx
    rw [hok.1] at hnot
    cases hnot
  have hsteady : Steady (s.caller k) { s.caller k with pc := .returning } := by
    refine ⟨rfl, rfl, rfl, id, iff_of_false nofun ?_, iff_of_false id ?_⟩ <;> rw [hpc]
    · nofun
    · exact id
  have href : (s.caller k).pc.ref k = wake := by
    rw [hpc]
    rfl
  -- Nobody is left to wake, or the one that the frame has kept.
  cases wake with
  | none =>
      refine inv_move h hok hsteady (iff_of_false nofun ?_) nofun (fun hx => absurd hx hku) nofun
        (fun x hx => ?_) nofun fun hx => hx.elim
      · change ¬ (s.caller k).pc = .asleep
        rw [hpc]
        nofun
      · have hx : (s.caller k).pc.ref k = some x := hx
        rw [href] at hx
        cases hx
  | some r =>
      rcases h.letGo href (by rw [hpc]; rfl) with ⟨hrk, hpcr, hranr, hfinal, hnotify⟩
      rw [State.notifyAll, hnotify]
      refine inv_wake h (pair_setPc hrk) rfl rfl rfl rfl hpcr hranr hfinal hok hsteady
        hok.1 nofun ?_ nofun (fun x hx hx' => ?_) (fun k' hk' hx => ?_) nofun fun hx => hx.elim
      · rw [hpc]
        nofun
      · rw [href] at hx'
        exact absurd (Option.some.inj hx').symm hx
      · exact hk' (h.refs.inj k' k r hx href)

/-- A call that the consumer has is that of the holder, or of a caller that sleeps. -/
theorem Inv.of_kept (h : Inv s u) {r : K} (hkept : (s.caller r).kept ≠ .nothing) :
    (s.caller r).pc.Holds ∨ (s.caller r).pc = .asleep ∧ (s.caller r).ran = true := by
  have hok := h.ok r
  unfold Caller.Ok at hok
  cases hx : (s.caller r).pc <;> simp only [hx] at hok
  case asleep =>
    refine .inr ⟨rfl, ?_⟩
    by_contra hran
    exact hkept (hok.2.2.2.1 (by simpa using hran)).1
  case executing | inside | draining | running | handing | resting => exact .inl trivial
  case idle | swapped | parked => exact absurd hok.2.1 hkept
  case released | returning => exact absurd hok.2.1 hkept
  case returned => exact absurd hok.2.1.1 hkept

/-- The consumer hands back a call. -/
theorem inv_progress (h : Inv s u) {f : Frame K} (hpc : (s.caller k).pc = .draining f .progressing)
    {r : K} (hkept : (s.caller r).kept = .completed) : Inv (s.handBack k f r) u := by
  have hok := h.ok k
  unfold Caller.Ok at hok
  rw [hpc] at hok
  rcases hok with ⟨hown, hframe, _⟩
  have hplace := h.place k (by rw [hpc]; trivial)
  rw [hpc] at hplace
  have hku : k ∉ u := fun hx => by
    have hnot := h.history.not_ran hx
    rw [hown.1] at hnot
    cases hnot
  unfold State.handBack
  by_cases hmine : f.own = true ∧ r = k
  · -- The holder's own call: it is not asleep, so it is told by `own`.
    rw [if_pos hmine]
    rcases hmine with ⟨hf, rfl⟩
    have hself : (s.set r { s.caller r with kept := .nothing }).setPc r
        (.draining { f with own := false } .progressing) =
        s.set r { s.caller r with
          kept := .nothing
          pc := .draining { f with own := false } .progressing } := by
      unfold State.setPc
      rw [set_self]
      unfold State.set
      simp only [Function.update_idem]
    rw [hself]
    have hfinal := (hown.2.2.1 hf).final hkept
    refine inv_move h ⟨⟨hown.1, hown.2.1, nofun, fun _ => hfinal⟩, hframe, nofun⟩
      ⟨rfl, rfl, rfl, fun _ => rfl, iff_of_false nofun ?_, iff_of_true trivial ?_⟩
      (iff_of_false nofun ?_) nofun (fun hx => absurd hx hku) ?_ ?_
      (fun g hg => by cases hg) fun _ => ⟨hplace.1, nofun, nofun⟩ <;> rw [hpc]
    · nofun
    · trivial
    · nofun
    · exact fun _ hr => ⟨hr, rfl⟩
    · exact fun _ hr _ => hr
  · rw [if_neg hmine]
    -- Any other call is that of a caller that sleeps.
    have hrk : r ≠ k := by
      rintro rfl
      cases hf : f.own with
      | true => exact hmine ⟨hf, rfl⟩
      | false =>
          rw [(hown.2.2.2 hf).1] at hkept
          cases hkept
    by_cases hcur : f.cur ≠ k ∧ r = f.cur
    · rw [if_pos hcur]
      exact inv_handBack h hpc hcur.1 hcur.2 hkept (pair_setPc hrk) rfl rfl rfl rfl
    · rw [if_neg hcur]
      have hpcr : (s.caller r).pc = .asleep ∧ (s.caller r).ran = true := by
        refine (h.of_kept ?_).resolve_left fun hx => hrk (h.lock.one r k hx (by rw [hpc]; trivial))
        rw [hkept]
        nofun
      rcases h.slept hpcr.1 hpcr.2 with ⟨hsth, hasked, hd⟩
      have hdeferred : (s.caller r).Deferred := by
        rcases hd with hd | hd
        · exact hd
        · rw [hd.1] at hkept
          cases hkept
      have hfinal := hdeferred.final hkept
      have heq : (s.set r { s.caller r with kept := .nothing }).notify r =
          s.set r (s.caller r).wake := by
        rw [notify_call (by rw [set_self]; exact hsth) (by rw [set_self]; exact hasked), set_self]
        unfold State.set
        simp only [Function.update_idem]
        rfl
      have hp : Pair s (s.set r (s.caller r).wake) k (s.caller k) r (s.caller r).wake :=
        ⟨set_ne (Ne.symm hrk), set_self .., fun x _ hx => set_ne hx⟩
      rw [heq]
      -- Nobody is at its node or about to wake it.
      have hnoref : ∀ k', (s.caller k').pc.ref k' ≠ some r := by
        intro k' hx
        have hwake := h.refs.wake k' r hx
        cases hpck : (s.caller k').pc <;> rw [hpck] at hx hwake
        case draining g stage =>
          have heqk := h.lock.one k' k (by rw [hpck]; trivial) (by rw [hpc]; trivial)
          subst heqk
          rw [hpck] at hpc
          cases hpc
          by_cases hx' : f.cur = k'
          · rw [Pc.ref, if_pos hx'] at hx
            cases hx
          · rw [Pc.ref, if_neg hx'] at hx
            exact hcur ⟨hx', (Option.some.inj hx).symm⟩
        case released w =>
          rw [hwake.mpr hx] at hkept
          cases hkept
        all_goals cases hx
      refine inv_wake h hp rfl rfl rfl rfl hpcr.1 hpcr.2 ⟨rfl, hfinal.2⟩ (h.ok k) (.refl _) hown.1
        ?_ ?_ (fun x hx => ⟨hx, ?_, rfl⟩) (fun x _ hx _ => hx) (fun k' _ => hnoref k')
        (h.settled k) (h.place k)
      · rw [hpc]
        nofun
      · rw [hpc]
        nofun
      · rintro rfl
        exact hnoref k hx

/-- The holder runs its own request, or its closure. -/
theorem inv_own (h : Inv s u) {own : Bool}
    (hpc : (s.caller k).pc = .executing ∨ (s.caller k).pc = .inside)
    (hpcc : c.pc = .draining ⟨k, none, own⟩ .polling) (hown : c.Own own)
    (hasked : c.asked = (s.caller k).asked) (hnext : c.next = (s.caller k).next)
    (hcaller : s'.caller = (s.set k c).caller) (htail : s'.tail = s.tail)
    (horder : s'.order = s.order) (hserved : s'.served = s.served ++ [k])
    (hexecuted : s'.executed = s.executed ++ (s.caller k).asked.toList.map (k, ·)) :
    ∃ w, Inv s' w := by
  have hholds : (s.caller k).pc.Holds := by
    rcases hpc with hx | hx <;> rw [hx] <;> trivial
  have href : (s.caller k).pc.ref k = none := by
    rcases hpc with hx | hx <;> rw [hx] <;> rfl
  have hplace := h.place k hholds
  have hq : ∃ w, u = k :: w ∧ Queue s.caller s.tail k w := by
    rcases hpc with hx | hx <;> rw [hx] at hplace <;> exact hplace
  rcases hq with ⟨w, hu, hq⟩
  exact ⟨w, inv_turn h hu hq hholds href hpcc hown hasked hnext hcaller htail horder hserved
    hexecuted⟩

/-- The holder moves on to the next request. -/
theorem inv_runNext (h : Inv s u) {own : Bool} {n : K} (hpc : (s.caller k).pc = .running own n)
    (answer : Option Resp) : ∃ w, Inv (s.run k n own answer) w := by
  have hplace := h.place k (by rw [hpc]; trivial)
  rw [hpc] at hplace
  rcases hplace with ⟨w, hu, hq, hpcn, hasked⟩
  have hrann : (s.caller n).ran = false := h.history.not_ran (by rw [hu]; exact List.mem_cons_self)
  have hokk := h.ok k
  unfold Caller.Ok at hokk
  rw [hpc] at hokk
  have hnk : n ≠ k := by
    rintro rfl
    have hown : (s.caller n).Own own := hokk
    rw [hown.1] at hrann
    cases hrann
  have hokn := h.ok n
  unfold Caller.Ok at hokn
  rw [hpcn] at hokn
  rcases hokn with ⟨hwoken, hvalue, hsth, hfresh, _⟩
  -- The next caller sleeps with its request in its node.
  rcases hfresh hrann with ⟨hkept, hreq⟩
  -- Its call is answered, or stays with the consumer.
  let d : Caller K Req Resp :=
    { s.caller n with
      ran := true
      out := if answer = none then (s.caller n).out else answer
      given := answer
      kept := if answer = none then .deferred else .nothing }
  have hd : d.Ok n := by
    unfold Caller.Ok
    simp only [d, hpcn]
    refine ⟨hwoken, hvalue, hsth, nofun, fun _ => ⟨hasked, ?_⟩⟩
    cases answer with
    | none => exact .inl ⟨hasked, hvalue, .inl rfl⟩
    | some v => exact .inr ⟨rfl, fun _ => ⟨nofun, .inr ⟨hvalue, rfl⟩⟩⟩
  let pc : Pc K Resp := .draining ⟨n, if answer = none then none else some n, own⟩ .polling
  have hp : Pair s ((s.set n d).setPc k pc) k { s.caller k with pc := pc } n d := pair_setPc hnk
  have hp' : Pair s (s.run k n own answer) k { s.caller k with pc := pc } n d :=
    ⟨hp.fst, hp.snd, hp.rest⟩
  refine ⟨w, inv_run h hpc hu hq hpcn hp' rfl rfl rfl hpcn hd ?_ rfl rfl rfl ?_⟩
  · cases answer with
    | none => rfl
    | some v => rfl
  · change s.executed ++ (s.caller n).req.toList.map (n, ·) = _
    rw [hreq]

/-- The next step of `drain`. -/
theorem inv_drain (h : Inv s u) {f : Frame K} {stage : Stage K}
    (hpc : (s.caller k).pc = .draining f stage) {a : Answers K Resp}
    (ha : a.Honest fun k => (s.caller k).kept) : Inv (s.drain k f a stage) u := by
  have hplace := h.place k (by rw [hpc]; trivial)
  rw [hpc] at hplace
  -- Each stage of the loop goes on to the next, or leaves with the lock.
  cases stage with
  | polling =>
      change Inv (s.setPc k (.draining f (if a.active = true then .progressing else .loading))) u
      by_cases hx : a.active = true
      · rw [if_pos hx]
        exact inv_stage h hpc _ nofun nofun nofun
      · rw [if_neg hx]
        exact inv_stage h hpc _ nofun nofun nofun
  | progressing =>
      unfold State.drain
      dsimp only
      cases hr : a.progress with
      | none => exact inv_stage h hpc _ nofun nofun nofun
      | some r => exact inv_progress h hpc (ha.2 r hr)
  | loading =>
      unfold State.drain
      dsimp only
      cases hn : (s.caller f.cur).next with
      | none => exact inv_stage h hpc _ nofun nofun nofun
      | some n =>
          refine inv_stage h hpc _ nofun nofun fun m lock hst => ?_
          cases hst
          exact hn
  | checking =>
      change Inv (s.setPc k
        (.draining f (if f.own = true ∨ a.active = true then .polling else .releasing))) u
      by_cases hx : f.own = true ∨ a.active = true
      · rw [if_pos hx]
        exact inv_stage h hpc _ nofun nofun nofun
      · rw [if_neg hx]
        rw [not_or] at hx
        exact inv_stage h hpc _ (fun _ => ⟨by simpa using hx.1, ha.idle (by simpa using hx.2)⟩)
          nofun nofun
  | releasing =>
      unfold State.drain
      dsimp only
      by_cases ht : s.tail = some f.cur
      · rw [if_pos ht]
        exact inv_release h hpc ht
      · rw [if_neg ht]
        exact inv_stage h hpc _ nofun (fun _ => hplace.1.tail_ne_nil ht) nofun
  | linking =>
      unfold State.drain
      dsimp only
      cases hn : (s.caller f.cur).next with
      | none => exact h
      | some n =>
          refine inv_stage h hpc _ nofun nofun fun m lock hst => ?_
          cases hst
          exact hn
  | leaving n lock => exact inv_leave h hpc

omit [DecidableEq K] in
/-- The consumer completes a call. -/
theorem Caller.Ok.complete (h : c.Ok k) (hkept : c.kept = .deferred) (v : Resp) :
    Caller.Ok k { c with out := some v, given := some v, kept := .completed } := by
  have hnone : ∀ {p : Prop}, c.kept = .nothing → p := fun hx => by
    rw [hkept] at hx
    cases hx
  have hdeferred : c.Deferred →
      Caller.Deferred { c with out := some v, given := some v, kept := .completed } :=
    fun hd => ⟨hd.1, hd.2.1, .inr ⟨rfl, nofun, rfl⟩⟩
  have hown : ∀ {own}, c.Own own →
      Caller.Own { c with out := some v, given := some v, kept := .completed } own :=
    fun hx => ⟨hx.1, hx.2.1, fun ho => hdeferred (hx.2.2.1 ho), fun ho => hnone (hx.2.2.2 ho).1⟩
  unfold Caller.Ok at h ⊢
  -- Where nothing can be kept the place is excluded; in the others the call that was deferred is
  -- one that has completed.
  cases hpc : c.pc <;> simp only [hpc] at h ⊢
  case idle | swapped | executing | inside => exact hnone h.2.1
  case parked => exact hnone h.2.1
  case released | returning => exact hnone h.2.1
  case returned => exact hnone h.2.1.1
  case draining => exact ⟨hown h.1, h.2⟩
  case running | handing => exact hown h
  case resting => exact ⟨hown h.1, h.2⟩
  case asleep =>
    rcases h with ⟨hwoken, hvalue, hsth, hfresh, hran⟩
    refine ⟨hwoken, hvalue, hsth, fun hx => hnone (hfresh hx).1, fun hx => ?_⟩
    rcases hran hx with ⟨hasked, hd | hd⟩
    · exact ⟨hasked, .inl (hdeferred hd)⟩
    · exact hnone hd.1

end

end Combining

end Delegate

end Cmpth

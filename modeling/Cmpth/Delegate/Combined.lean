import Cmpth.Delegate.CombiningSteps

/-!
# What `CombiningDelegator` Does

However calls and locked sections interleave, the consumer has one user, the
callers are served once and in order, each returns its own response once its
call has completed, and nobody is touched after being let go.

## Theorems

* `inv_reachable`: Every reachable state keeps the invariant.
* `next_untouched`: A step changes its own caller and those it touches.
* `touches_live`: It touches nobody that has been let go.
* `asleep_awaited`: Whoever sleeps is going to be woken.
* `calls_combined`: All of it, in every reachable state.
* `inv_init`, `inv_next`: Every step keeps the invariant.
* `notify_untouched`, `notifyAll_untouched`, `setPc_ne`: Callers that a step leaves alone.
* `holds_of_uses`, `returned_next`: Who uses the consumer, and who has returned.
* `fresh_init`, `calls_combined_deferredFirst`: Three calls, of which the first is deferred.
-/

namespace Cmpth

namespace Delegate

namespace Combining

variable {K Req Resp : Type*} [DecidableEq K]

section

variable {s s' : State K Req Resp} {u : List K} {k : K} {c : Caller K Req Resp}

/-- Every step keeps the invariant. -/
theorem inv_next (h : Inv s u) {a : Action K Req Resp} (hg : guard s a) :
    ∃ w, Inv (next s a) w := by
  cases a with
  | call k r => exact ⟨_, inv_enqueue h hg (some r)⟩
  | withLock k => exact ⟨_, inv_enqueue h hg none⟩
  | complete k v =>
      -- Only a deferred call is completed, and its caller stays where it is.
      have hkept : (s.caller k).kept = .deferred := hg
      have hok := h.ok k
      have hsteady : Steady (s.caller k)
          { s.caller k with out := some v, given := some v, kept := .completed } :=
        ⟨rfl, rfl, rfl, fun hx => absurd (hkept.symm.trans hx) (by simp), Iff.rfl, Iff.rfl⟩
      refine ⟨u, inv_move h ?_ hsteady Iff.rfl (by simp) (fun _ => ?_) (fun _ hr => ⟨hr, rfl⟩)
        (fun _ hr _ => hr) (h.settled k) (h.place k)⟩
      · exact hok.complete hkept v
      · unfold Still
        rw [set_self]
        exact ⟨rfl, .inl rfl⟩
  | step k a =>
      rcases hg with ⟨hsteps, ha⟩
      change ∃ w, Inv (s.next k a) w
      have hok := h.ok k
      unfold Caller.Ok at hok
      unfold State.next
      cases hpc : (s.caller k).pc <;> simp only [hpc] at hok <;> rw [hpc] at hsteps
      case idle | asleep | returned => exact hsteps.elim
      -- The caller waits behind another: it fills its node, links it and goes to sleep.
      case swapped prev =>
        rcases hok with ⟨hran, hkept, hwoken, hvalue⟩
        refine ⟨u, inv_move h ⟨hran, hkept, hwoken, hvalue, rfl, rfl⟩
          ⟨rfl, rfl, rfl, id, iff_of_false (by simp) ?_, iff_of_false id ?_⟩
          (iff_of_false (by simp) ?_) (by simp) (fun _ => ?_) (by rintro _ ⟨⟩) ?_ (by simp)
          fun hx => hx.elim⟩
        · rw [hpc]
          simp
        · rw [hpc]
          exact id
        · rw [hpc]
          simp
        · unfold Still
          rw [set_self]
          exact ⟨rfl, .inr ⟨prev, hpc, rfl⟩⟩
        · rw [hpc]
          rintro _ ⟨⟩
      case parked prev =>
        have hp : Pair s _ k { s.caller k with pc := .asleep } prev
            { s.caller prev with next := some (k, (s.caller k).asked.isNone) } :=
          pair_setPc (h.prev hpc).1
        exact ⟨u, inv_link h hpc hp rfl rfl rfl rfl⟩
      -- The caller has the lock.
      case executing =>
        rcases hok with ⟨hran, hkept, hwoken, hvalue, hasked⟩
        let c : Caller K Req Resp :=
          { s.caller k with
            ran := true
            value := a.execute
            given := a.execute
            kept := if a.execute = none then .deferred else .nothing
            pc := .draining ⟨k, none, a.execute.isNone⟩ .polling }
        have hown : c.Own a.execute.isNone := by
          refine ⟨rfl, fun _ => hwoken, fun hx => ?_, fun hx => ?_⟩
          · have hx := Option.isNone_iff_eq_none.mp hx
            exact ⟨hasked, hx, .inl (if_pos hx)⟩
          · have hx : a.execute ≠ none := fun hy => by
              rw [hy] at hx
              cases hx
            exact ⟨if_neg hx, fun _ => ⟨hx, .inl rfl⟩⟩
        exact inv_own (c := c) h (.inl hpc) rfl hown rfl rfl rfl rfl rfl rfl rfl
      case inside =>
        rcases hok with ⟨hran, hkept, hasked⟩
        let c : Caller K Req Resp :=
          { s.caller k with ran := true, pc := .draining ⟨k, none, false⟩ .polling }
        have hown : c.Own false :=
          ⟨rfl, fun hx => absurd hasked hx, (by simp), fun _ => ⟨hkept, fun hx => absurd hasked hx⟩⟩
        refine inv_own (c := c) h (.inr hpc) rfl hown rfl rfl rfl rfl rfl rfl ?_
        rw [hasked]
        exact (List.append_nil _).symm
      case draining f stage => exact ⟨u, inv_drain h hpc ha⟩
      case running own n => exact inv_runNext h hpc a.execute
      case handing own n =>
        have hplace := h.place k (by rw [hpc]; trivial)
        rw [hpc] at hplace
        have hku : k ∉ u := fun hx => by
          have hnot := h.history.not_ran hx
          rw [hok.1] at hnot
          cases hnot
        cases own with
        | true =>
            -- Its own call is deferred: it sleeps first.
            let c : Caller K Req Resp := { s.caller k with sth := true, pc := .resting n }
            have hsteady : Steady (s.caller k) c := by
              refine ⟨rfl, rfl, rfl, id, iff_of_false (by simp) ?_, iff_of_true trivial ?_⟩ <;>
                rw [hpc]
              · simp
              · trivial
            refine ⟨u, inv_move (c := c) h ⟨hok, rfl⟩ hsteady (iff_of_false (by simp) ?_) (by simp)
              (fun hx => absurd hx hku) (by rintro _ ⟨⟩) ?_ (by simp) fun _ => hplace⟩
            · rw [hpc]
              simp
            · rw [hpc]
              rintro _ ⟨⟩
        | false =>
            rcases hplace with ⟨w, hu, hq, hpcn, hasked⟩
            have hn : n ∈ u := by
              rw [hu]
              exact List.mem_cons_self
            have hnk : n ≠ k := by
              rintro rfl
              exact hku hn
            have hsth := (h.fresh hpcn (h.history.not_ran hn)).1
            change ∃ w, Inv ((s.notify n).setPc k .returning) w
            rw [notify_lock hsth hasked]
            exact ⟨u, inv_pass h hu hq hpcn hasked (by rw [hpc]; trivial) (by rw [hpc]; rfl) hok.1
              (.inl rfl) ⟨hok.1, hok.2.2.2 rfl⟩ (pair_setPc hnk) rfl rfl rfl rfl⟩
      case resting n =>
        have hplace := h.place k (by rw [hpc]; trivial)
        rw [hpc] at hplace
        rcases hplace with ⟨w, hu, hq, hpcn, hasked⟩
        rcases hok with ⟨hown, hsthk⟩
        have hdeferred := hown.2.2.1 rfl
        have hn : n ∈ u := by
          rw [hu]
          exact List.mem_cons_self
        have hnk : n ≠ k := by
          rintro rfl
          have hnot := h.history.not_ran hn
          rw [hown.1] at hnot
          cases hnot
        have hsth := (h.fresh hpcn (h.history.not_ran hn)).1
        have hkept : (s.caller k).kept ≠ .nothing := by
          rcases hdeferred.2.2 with hx | ⟨hx, _⟩ <;> rw [hx] <;> simp
        have hokk : Caller.Ok k { s.caller k with pc := .asleep } := by
          refine ⟨hown.2.1 hdeferred.1, hdeferred.2.1, hsthk, fun hx => ?_,
            fun _ => ⟨hdeferred.1, .inl hdeferred⟩⟩
          have hx : (s.caller k).ran = false := hx
          rw [hown.1] at hx
          cases hx
        change ∃ w, Inv ((s.notify n).setPc k .asleep) w
        rw [notify_lock hsth hasked]
        exact ⟨u, inv_pass h hu hq hpcn hasked (by rw [hpc]; trivial) (by rw [hpc]; rfl) hown.1
          (.inr ⟨rfl, hkept⟩) hokk (pair_setPc hnk) rfl rfl rfl rfl⟩
      case released wake => exact ⟨u, inv_letGo h hpc⟩
      case returning =>
        rcases hok with ⟨hran, hfinal⟩
        have hku : k ∉ u := fun hx => by
          have hnot := h.history.not_ran hx
          rw [hran] at hnot
          cases hnot
        refine ⟨u, inv_move h ⟨hran, hfinal, ?_⟩
          ⟨rfl, rfl, rfl, id, iff_of_false (by simp) ?_, iff_of_false id ?_⟩
          (iff_of_false (by simp) ?_) (by simp) (fun hx => absurd hx hku) (by rintro _ ⟨⟩) ?_
          (by simp) fun hx => hx.elim⟩
        · -- The response is where the caller looks for it.
          by_cases hasked : (s.caller k).asked = none
          · rw [if_pos hasked, if_pos hasked]
          · rw [if_neg hasked, if_neg hasked]
            rcases (hfinal.2 hasked) with ⟨hgiven, hx | ⟨hx, hy⟩⟩
            · dsimp only
              rw [hx]
              cases hg : (s.caller k).given with
              | some v => rfl
              | none => exact absurd hg hgiven
            · dsimp only
              rw [hx]
              exact hy
        · rw [hpc]
          simp
        · rw [hpc]
          exact id
        · rw [hpc]
          simp
        · rw [hpc]
          rintro _ ⟨⟩

omit [DecidableEq K] in
theorem inv_init [DecidableEq K] (h : init s) : Inv s [] := by
  rcases h with ⟨htail, horder, hserved, hexecuted, hidle⟩
  have hpc : ∀ k, (s.caller k).pc = .idle := fun k => (hidle k).2.2.2.2.2.2
  have hno : ∀ k, ¬ (s.caller k).pc.Holds := fun k hx => by
    rw [hpc] at hx
    -- Nobody is queued, and nobody has come to anything.
    exact hx
  have href : ∀ {k r} {p : Prop}, (s.caller k).pc.ref k = some r → p := fun {k r p} hx => by
    rw [hpc] at hx
    cases hx
  exact
    { ok := fun k => by
        unfold Caller.Ok
        rw [hpc]
        rcases hidle k with ⟨_, hvalue, hkept, hran, _, hwoken, _⟩
        exact ⟨hran, hkept, hwoken, hvalue⟩
      history :=
        { order := by rw [horder, hserved]; rfl
          nodup := by rw [horder]; exact List.nodup_nil
          known := fun k => by
            rw [horder, hpc]
            exact iff_of_false List.not_mem_nil fun hx => hx rfl
          ran := fun k => by
            rw [hserved, (hidle k).2.2.2.1]
            exact iff_of_false List.not_mem_nil nofun
          executed := by rw [hexecuted, hserved]; rfl }
      lock := by
        rw [htail]
        exact tryLock_free hno
      free := fun _ => ⟨rfl, fun k => (hidle k).2.2.1⟩
      settled := fun k f hf => by rw [hpc] at hf; cases hf
      place := fun k hk => absurd hk (hno k)
      refs := ⟨fun _ _ => href, fun _ _ => href, fun _ _ _ hx => href hx, fun k hk => by
        rw [hpc] at hk
        cases hk⟩ }

theorem inv_reachable (h : system.Reachable s) : ∃ u, Inv s u := by
  refine System.Reachable.induct (P := fun s => ∃ u, Inv s u) h (fun s hi => ⟨[], inv_init hi⟩)
    fun s a hs hg => ?_
  rcases hs with ⟨u, hu⟩
  exact inv_next hu hg

/-- The caller that takes the step. -/
def actor : Action K Req Resp → Option K
  | .call k _ | .withLock k | .step k _ => some k
  | .complete _ _ => none

theorem notify_untouched {r x : K} (hx : x ≠ r) : (s.notify r).caller x = s.caller x := by
  unfold State.notify
  split
  · exact set_ne hx
  · rfl

theorem notifyAll_untouched {w : Option K} {x : K} (hx : x ∉ w.toList) :
    (s.notifyAll w).caller x = s.caller x := by
  cases w with
  | none => rfl
  | some r =>
      refine notify_untouched ?_
      rintro rfl
      exact hx (by simp)

theorem setPc_ne {pc : Pc K Resp} {x : K} (hx : x ≠ k) : (s.setPc k pc).caller x = s.caller x :=
  set_ne hx

/-- A step changes nobody but the caller that takes it and those it touches. -/
theorem next_untouched {a : Action K Req Resp} {x : K} (hactor : actor a ≠ some x)
    (htouches : x ∉ touches s a) : (next s a).caller x = s.caller x := by
  -- Every action changes its own caller, and those that `touches` lists.
  cases a with
  | call k r | withLock k =>
      have hx : x ≠ k := fun hx => hactor (congrArg some hx.symm)
      exact set_ne hx
  | complete k v =>
      refine set_ne ?_
      rintro rfl
      exact htouches List.mem_cons_self
  | step k a =>
      have hx : x ≠ k := fun hx => hactor (congrArg some hx.symm)
      change (s.next k a).caller x = s.caller x
      unfold touches at htouches
      unfold State.next
      cases hpc : (s.caller k).pc <;> simp only [hpc] at htouches ⊢
      case swapped prev => exact set_ne hx
      case parked prev =>
        rw [setPc_ne hx, set_ne]
        rintro rfl
        exact htouches List.mem_cons_self
      case executing | inside => exact set_ne hx
      -- The holder, as it drains: it writes to a caller only where it lets one go.
      case draining f stage =>
        cases stage with
        | polling | checking => exact setPc_ne hx
        | progressing =>
            unfold State.drain
            dsimp only at htouches ⊢
            cases hr : a.progress with
            | none => exact setPc_ne hx
            | some r =>
                rw [hr] at htouches
                have hxr : x ≠ r := by
                  rintro rfl
                  exact htouches (by simp)
                unfold State.handBack
                dsimp only
                split
                · rw [setPc_ne hx, set_ne hxr]
                · split
                  · rw [setPc_ne hx, set_ne hxr]
                  · rw [notify_untouched hxr, set_ne hxr]
        | loading =>
            unfold State.drain
            dsimp only
            split <;> exact setPc_ne hx
        | linking =>
            unfold State.drain
            dsimp only
            split
            · rfl
            · exact setPc_ne hx
        | releasing =>
            unfold State.drain
            dsimp only
            split <;> exact setPc_ne hx
        | leaving n lock =>
            unfold State.drain
            dsimp only
            rw [setPc_ne hx]
            exact notifyAll_untouched htouches
      -- The holder, as it serves the next caller.
      case running own n =>
        have hxn : x ≠ n := by
          rintro rfl
          exact htouches List.mem_cons_self
        change ((s.set n _).setPc k _).caller x = _
        rw [setPc_ne hx, set_ne hxn]
      case handing own n =>
        cases own with
        | true => exact set_ne hx
        | false =>
            change ((s.notify n).setPc k .returning).caller x = _
            rw [setPc_ne hx]
            refine notify_untouched ?_
            rintro rfl
            exact htouches List.mem_cons_self
      case resting n =>
        rw [setPc_ne hx]
        refine notify_untouched ?_
        rintro rfl
        exact htouches List.mem_cons_self
      case released wake =>
        rw [setPc_ne hx]
        exact notifyAll_untouched htouches
      case returning => exact setPc_ne hx

/-- No step touches a caller that has been let go, or that has been woken and has
    not the lock. -/
theorem touches_live (h : Inv s u) {a : Action K Req Resp} (hg : guard s a) {r : K}
    (hr : r ∈ touches s a) :
    ¬ (s.caller r).pc.Gone ∧ ((s.caller r).woken = true → (s.caller r).pc.Holds) := by
  -- A caller that is touched holds the lock, is asleep or is kept by the consumer.
  have hholder : ∀ {x}, (s.caller x).pc.Holds →
      ¬ (s.caller x).pc.Gone ∧ ((s.caller x).woken = true → (s.caller x).pc.Holds) := by
    intro x hx
    refine ⟨fun hgone => ?_, fun _ => hx⟩
    cases hpc : (s.caller x).pc <;> rw [hpc] at hx hgone <;> first | exact hx | exact hgone
  have hasleep : ∀ {x}, (s.caller x).pc = .asleep →
      ¬ (s.caller x).pc.Gone ∧ ((s.caller x).woken = true → (s.caller x).pc.Holds) := by
    intro x hx
    have hok := h.ok x
    unfold Caller.Ok at hok
    rw [hx] at hok ⊢
    refine ⟨id, fun hwoken => ?_⟩
    rw [hok.1] at hwoken
    cases hwoken
  have hkept : ∀ {x}, (s.caller x).kept ≠ .nothing →
      ¬ (s.caller x).pc.Gone ∧ ((s.caller x).woken = true → (s.caller x).pc.Holds) := by
    intro x hx
    rcases h.of_kept hx with hx | hx
    · exact hholder hx
    · exact hasleep hx.1
  cases a with
  | call | withLock => exact absurd hr List.not_mem_nil
  | complete k v =>
      have hg : (s.caller k).kept = .deferred := hg
      rw [List.mem_singleton.mp hr]
      refine hkept ?_
      rw [hg]
      nofun
  | step k a =>
      unfold touches at hr
      have hok := h.ok k
      unfold Caller.Ok at hok
      have hplace := h.place k
      cases hpc : (s.caller k).pc <;> simp only [hpc] at hr hok hplace
      -- A caller links itself to the one before, which cannot have left.
      case parked prev =>
        rw [List.mem_singleton.mp hr]
        rcases (h.prev hpc).2.2 with hx | hx | ⟨a, hx⟩
        · exact hholder hx
        · exact hasleep hx
        · have hprev := h.ok prev
          unfold Caller.Ok at hprev
          rcases hx with hx | hx <;> rw [hx] at hprev ⊢ <;> refine ⟨id, fun hwoken => ?_⟩ <;>
            rw [hprev.2.2.1] at hwoken <;> cases hwoken
      -- The holder has come to a caller that it has not let go.
      case draining f stage =>
        have hcur : ¬ (s.caller f.cur).pc.Gone ∧
            ((s.caller f.cur).woken = true → (s.caller f.cur).pc.Holds) := by
          by_cases hx : f.cur = k
          · rw [hx]
            exact hholder (by rw [hpc]; trivial)
          · exact hasleep (h.refs.asleep k f.cur (by rw [hpc]; exact if_neg hx)).1
        cases stage with
        | polling | checking | releasing => exact absurd hr List.not_mem_nil
        | progressing =>
            have hx : (s.caller r).kept = .completed := hg.2.2 r (Option.mem_toList.mp hr)
            refine hkept ?_
            rw [hx]
            nofun
        | loading | linking =>
            rw [List.mem_singleton.mp hr]
            exact hcur
        | leaving n lock =>
            rw [hok.2.1.2 r (Option.mem_toList.mp hr)]
            exact hcur
      case running own n | resting n =>
        rcases hplace trivial with ⟨w, _, _, hpcn, _⟩
        rw [List.mem_singleton.mp hr]
        exact hasleep hpcn
      case handing own n =>
        rcases hplace trivial with ⟨w, _, _, hpcn, _⟩
        split at hr
        · exact absurd hr List.not_mem_nil
        · rw [List.mem_singleton.mp hr]
          exact hasleep hpcn
      case released wake =>
        refine hasleep (h.refs.asleep k r ?_).1
        rw [hpc]
        exact Option.mem_toList.mp hr
      all_goals exact absurd hr List.not_mem_nil

omit [DecidableEq K] in
theorem holds_of_uses {a : Action K Req Resp} (hk : uses s a = some k) :
    (s.caller k).pc.Holds := by
  cases a with
  | call | withLock | complete => cases hk
  | step k' a =>
      unfold uses at hk
      cases hpc : (s.caller k').pc <;> simp only [hpc] at hk
      case executing | inside | running =>
        cases hk
        rw [hpc]
        trivial
      case draining f stage =>
        cases stage <;> cases hk <;> rw [hpc] <;> trivial
      all_goals cases hk

/-- A caller that has returned has done so for good. -/
theorem returned_next (h : Inv s u) {a : Action K Req Resp} (hg : guard s a) {v : Option Resp}
    (hk : (s.caller k).pc = .returned v) : (next s a).caller k = s.caller k := by
  refine next_untouched (fun hactor => ?_) fun htouches => ?_
  · cases a with
    | call k' r | withLock k' =>
        cases hactor
        have hg : (s.caller k).pc = .idle := hg
        rw [hk] at hg
        cases hg
    | step k' a =>
        cases hactor
        have hsteps := hg.1
        rw [hk] at hsteps
        exact hsteps
    | complete k' v => cases hactor
  · have hgone := (touches_live h hg htouches).1
    rw [hk] at hgone
    exact hgone trivial

/-- Whoever sleeps is going to be woken by somebody who can move. -/
theorem asleep_awaited (h : Inv s u) (hk : (s.caller k).pc = .asleep) :
    ∃ k', (s.caller k').pc.Steps ∧
      ((s.caller k').pc.Holds ∨ (s.caller k').pc.wake = some k) := by
  have hholder : ∀ {k'}, (s.caller k').pc.Holds → (s.caller k').pc.Steps := by
    intro k' hx
    cases hpc : (s.caller k').pc <;> rw [hpc] at hx <;> trivial
  have hheld : s.tail ≠ none → ∃ k', (s.caller k').pc.Steps ∧
      ((s.caller k').pc.Holds ∨ (s.caller k').pc.wake = some k) := by
    intro ht
    rcases h.lock.held (Option.isSome_iff_ne_none.mpr ht) with ⟨k', hk'⟩
    exact ⟨k', hholder hk', .inl hk'⟩
  -- Either a holder is on the way to it, or its answer is kept and the lock is held for it.
  by_cases hkept : (s.caller k).kept = .nothing
  · cases hran : (s.caller k).ran with
    | false =>
        refine hheld fun ht => ?_
        have horder := (h.history.known k).mpr (by rw [hk]; nofun)
        rw [h.history.order, (h.free ht).1, List.append_nil] at horder
        rw [(h.history.ran k).mp horder] at hran
        cases hran
    | true =>
        rcases h.refs.covered k hk hran hkept with ⟨k', hk'⟩
        have hwake := (h.refs.wake k' k hk').mp hkept
        refine ⟨k', ?_, .inr hwake⟩
        cases hpc : (s.caller k').pc <;> rw [hpc] at hk' <;> trivial
  · exact hheld fun ht => hkept ((h.free ht).2 k)

/-- However calls and locked sections interleave, one caller at a time uses the
    consumer; the callers are served once, in the order in which they swapped the
    tail; whoever returns has its own response, once its call has completed; no
    node is touched once its caller was woken; and the lock is free only when
    nothing is left to do. -/
theorem calls_combined (h : system.Reachable s) :
    (∀ a a' k k', guard s a → guard s a' → uses s a = some k → uses s a' = some k' → k = k') ∧
      ((∃ u, s.order = s.served ++ u) ∧ s.order.Nodup ∧
        (∀ k, k ∈ s.order ↔ (s.caller k).pc ≠ .idle) ∧
        s.executed = requests s.caller s.served) ∧
      (∀ k v, (s.caller k).pc = .returned v → k ∈ s.served ∧ (s.caller k).kept = .nothing ∧
        ((s.caller k).asked ≠ none → v = (s.caller k).given ∧ v ≠ none) ∧
        ∀ a, guard s a → (next s a).caller k = s.caller k) ∧
      (∀ a, guard s a →
        (∀ r ∈ touches s a, ¬ (s.caller r).pc.Gone ∧
          ((s.caller r).woken = true → (s.caller r).pc.Holds) ∧
          ∀ k, actor a = some k → (s.caller k).pc.Holds → r ≠ k → (s.caller r).woken = false) ∧
        ∀ r ∉ touches s a, actor a ≠ some r → (next s a).caller r = s.caller r) ∧
      (s.tail = none → s.served = s.order ∧ ∀ k, (s.caller k).kept = .nothing) ∧
      ∀ k, (s.caller k).pc = .asleep →
        ∃ k', (s.caller k').pc.Steps ∧
          ((s.caller k').pc.Holds ∨ (s.caller k').pc.wake = some k) := by
  rcases inv_reachable h with ⟨u, hinv⟩
  refine ⟨fun a a' k k' _ _ hk hk' => ?_, ⟨⟨u, hinv.history.order⟩, hinv.history.nodup,
    hinv.history.known, hinv.history.executed⟩, fun k v hpc => ?_, fun a hg => ⟨fun r hr => ?_,
    fun r hr hactor => next_untouched hactor hr⟩, fun ht => ?_, fun k => asleep_awaited hinv⟩
  · exact hinv.lock.one k k' (holds_of_uses hk) (holds_of_uses hk')
  · have hok := hinv.ok k
    unfold Caller.Ok at hok
    rw [hpc] at hok
    rcases hok with ⟨hran, hfinal, hv⟩
    refine ⟨(hinv.history.ran k).mpr hran, hfinal.1, fun hasked => ?_,
      fun a hg => returned_next hinv hg hpc⟩
    rw [hv, if_neg hasked]
    exact ⟨rfl, (hfinal.2 hasked).1⟩
  · rcases touches_live hinv hg hr with ⟨hgone, hwoken⟩
    refine ⟨hgone, hwoken, fun k _ hholds hne => ?_⟩
    -- Whoever was woken and is still there has the lock, and so is the holder.
    by_contra hx
    exact hne (hinv.lock.one r k (hwoken (by simpa using hx)) hholds)
  · rcases hinv.free ht with ⟨rfl, hkept⟩
    exact ⟨by rw [hinv.history.order, List.append_nil], hkept⟩

end

/-- A caller that has not called. -/
def Caller.fresh : Caller K Req Resp :=
  ⟨none, none, none, false, none, none, .nothing, false, none, false, .idle⟩

/-- A delegator nobody has called. -/
def State.fresh : State K Req Resp :=
  ⟨none, fun _ => .fresh, [], [], []⟩

theorem fresh_init : system.init (State.fresh : State K Req Resp) :=
  ⟨rfl, rfl, rfl, rfl, fun _ => ⟨rfl, rfl, rfl, rfl, rfl, rfl, rfl⟩⟩

/-- A caller's next step, while the consumer hands back nothing and runs nothing. -/
def plain (k : Fin 3) (active : Bool) : Action (Fin 3) Nat Nat :=
  .step k ⟨active, none, none⟩

/-- The first call is deferred, a second call and a locked section queue up
    behind it, and the first caller runs the one and hands the lock to the other. -/
def deferredFirst : List (Action (Fin 3) Nat Nat) :=
  [Action.call 0 10, plain 0 false, .call 1 11, plain 1 true, plain 1 true, .withLock 2,
    plain 2 true, plain 2 true] ++
  List.replicate 4 (plain 0 true) ++ [Action.step 0 ⟨true, none, some 21⟩, .complete 0 20] ++
  [plain 0 true, .step 0 ⟨true, some 0, none⟩] ++ List.replicate 5 (plain 0 false) ++
  plain 1 false :: List.replicate 7 (plain 2 false)

/-- All three return, in the order in which they came. -/
theorem calls_combined_deferredFirst :
    let s := system.run (State.fresh : State (Fin 3) Nat Nat) deferredFirst
    (s.tail = none ∧ s.executed = [(0, 10), (1, 11)] ∧ (s.caller 0).pc = .returned (some 20) ∧
        (s.caller 1).pc = .returned (some 21) ∧ (s.caller 2).pc = .returned none) ∧
      s.served = s.order ∧ ∀ k, (s.caller k).kept = .nothing := by
  refine ⟨by decide +kernel, ?_⟩
  have hreach := system.reachable_run deferredFirst _ fresh_init (by decide +kernel)
  exact (calls_combined hreach).2.2.2.2.1 (by decide +kernel)

end Combining

end Delegate

end Cmpth

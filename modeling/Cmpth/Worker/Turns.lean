import Cmpth.Worker.Shape

/-!
# The Steps of a Worker

Every action of the workers keeps their shape, a switch in a callback apart.

A switch is two moves, of the current task to the spot the callback takes it
from and of the task in hand to `cur_task`. Its cancellation is the same two
moves backwards, so the worker is left with the task that called and, in hand,
with the one that was popped.

## Main definitions

* `Action.outside`: The action starts no switch in a callback.

## Theorems

* `views_giveUp`, `views_consume`, `views_finish`, `views_joined`: What the invariant sees of the
  states within a switch.
* `moved_of_ne`, `allowed_hand`, `allowed_queue`: Where a token may go.
* `stays`: A token elsewhere stays where it is.
* `not_root`: The loop of a worker is only in the worker's cells.
* `run_target`, `run_tentative`, `tail_still`, `tail_target`, `tail_tentative`, `through_target`,
  `through_tentative`: What a worker is doing claims no slot.
* `acts_body`: User code outside of callbacks is a ULT's.
* `Inv.still`: A worker that runs has nothing in hand.
* `Inv.stands`, `Inv.cur_eq`: Who is at a context, and who is current.
* `Inv.calls`: A ULT that runs begins a switch.
* `inv_suspendToSched`, `inv_condSuspendToSched`, `inv_runOn`, `inv_exitToCont`, `inv_enter`,
  `inv_swap`: How switches begin.
* `Inv.exits`: The two ways to exit through the scheduler.
* `inv_spinYield`: The loop of a worker drops no guard, so outside of callbacks it is a ULT that
  yields.
* `inv_lock`: The mutex is free.
* `inv_lockWait`: The node is queued, and its ULT waits.
* `inv_dropGuard`: Also in a callback: the drop spins on the same worker.
* `Inv.grab`: A task is taken into the hand of a worker that has nothing there.
* `picked_of`: And the worker that calls, with the task current, is going to switch.
* `inv_switchNext`, `inv_takeRootCont`, `inv_suspendShim`, `inv_condSuspendShim`: How they find the
  next task, and go to it.
* `inv_pushBack`: The async task is put back first, and then the root is taken as if there had been
  nothing.
* `Inv.switch`, `Inv.switchBack`: The two moves of a switch, and of its cancellation.
* `inv_exitShim`: The task that exits is nobody's any more.
* `inv_spawn`: The child is current at once, and the parent is left to the callback.
* `inv_retract`, `inv_cancel`: A switch that is cancelled.
* `fits_update`: A context that suits the current task still does when others move.
* `spot_own`, `spot_ne_prev`, `spot_ne_hand`, `spot_slot`: Where the destinations are.
* `allowed_spot`: Where a ULT goes when it suspends.
* `Inv.publish`: The callback's store finds its cell empty: a slot is claimed, `root_cont` is where
  only the worker's own loop can be.
* `inv_publish`, `inv_register`, `inv_answer`, `inv_land`, `inv_returned`, `inv_link`,
  `inv_release`, `inv_handOver`: The callbacks.
* `resumed_doing`: A context that suits the current task is where the task goes on.
* `resumed_tentative`: And nothing asks there.
* `Inv.handed_self`: The code is handed the worker it runs on.
* `inv_commit`: The switch is final once the context of the task that goes on is cleared.
* `through_doing`: The drop of a guard is through: code goes on after it, a callback lands.
* `Inv.requeue`: A worker that goes on while a token leaves a slot or a join word for a queue.
* `Inv.exited`: The callback of an exit that finds nobody to resume goes on to land.
* `inv_settle`: The swap finds a joiner to resume, user code to call, or nothing.
* `inv_putBack`: What was popped goes back to where it came from.
* `inv_notify`, `inv_wake`, `inv_tryPop`, `inv_discard`, `inv_rePush`: Notifies, and a child that is
  taken back.
* `inv_build`: A branch is suspended before it has begun.
* `judged_doing`: What has been popped leaves the hand of a worker that goes on.
* `inv_spawnAsync`, `inv_poll`, `inv_pollPending`, `inv_wakeAsync`, `inv_pollReady`: The async
  tasks.
* `inv_next`: The invariant is kept.
-/

namespace Cmpth

namespace Worker

variable {W T A X M Q : Type*}
variable [DecidableEq W] [DecidableEq T] [DecidableEq A] [DecidableEq X] [DecidableEq M]
  [DecidableEq Q]
variable {s : State W T A X M Q} {place : Desc W T A → Option (Spot W T X Q)}
  {loc : W → Q} {node : X → Bool} {w : W} {t t' : T} {u n d : Desc W T A} {x y : X}
  {z z' : Spot W T X Q} {p : Pc W T A X M} {op : Op T X M} {dest : Dest T X} {k : Tail X M}
  {c onto : Ctx W T A X M} {wk : W} {q : Q} {m : M} {a : A}

/-- The action starts no switch in a callback. -/
def Action.outside : Action W T A X M Q → Prop
  | .suspendToSched _ _ _ _ c | .condSuspendToSched _ _ _ c | .enter _ _ _ _ c
  | .swap _ _ _ _ _ c | .spawn _ _ _ c | .lockWait _ _ _ _ c | .spinYield _ _ _ c =>
      c.inCallback = false
  | _ => True

instance (a : Action W T A X M Q) : Decidable a.outside :=
  match a with
  | .suspendToSched _ _ _ _ c | .condSuspendToSched _ _ _ c | .enter _ _ _ _ c
  | .swap _ _ _ _ _ c | .spawn _ _ _ c | .lockWait _ _ _ _ c | .spinYield _ _ _ c =>
      inferInstanceAs (Decidable (c.inCallback = false))
  | .runOn .. | .exitToSched .. | .exitAbandoned .. | .exitToCont .. | .lock .. | .dropGuard ..
  | .switchNext .. | .takeRootCont .. | .pushBack .. | .suspendShim .. | .condSuspendShim ..
  | .exitShim .. | .publish .. | .link .. | .release .. | .handOver .. | .returned .. | .land ..
  | .register .. | .answer .. | .commit .. | .retract .. | .cancel .. | .putBack ..
  | .commitFinished .. | .freeTask .. | .settle .. | .abandon .. | .registerWaker ..
  | .notify .. | .wake .. | .build .. | .tryPop .. | .discard .. | .rePush .. | .spawnAsync ..
  | .poll .. | .pollReady .. | .pollPending .. | .wakeAsync .. => isTrue trivial

section Small

omit [DecidableEq T] [DecidableEq A] [DecidableEq Q] in
theorem views_giveUp (s : State W T A X M Q) (k : Tail X M) (dest : Dest T X) (o : Option W)
    (w : W) (p : Pc W T A X M) :
    (((s.giveUp k).claim dest o).goto w p).Views s.tokens s.live s.ctx
      (Function.update s.pc w p) s.handed (s.claim dest o).claimed := by
  cases dest <;> cases k <;> exact ⟨rfl, rfl, rfl, rfl, rfl, rfl⟩

omit [DecidableEq A] [DecidableEq M] [DecidableEq Q] in
theorem views_consume (s : State W T A X M Q) (dest : Dest T X) (o : Option W) (w : W)
    (p : Pc W T A X M) :
    (((s.consume dest).claim dest o).goto w p).Views s.tokens s.live s.ctx
      (Function.update s.pc w p) s.handed (s.claim dest o).claimed := by
  cases dest <;> exact ⟨rfl, rfl, rfl, rfl, rfl, rfl⟩

theorem moved_of_ne {f : Spot W T X Q → List (Desc W T A)} {x y z : Spot W T X Q}
    (hx : z ≠ x) (hy : z ≠ y) : moved f d x y z = f z := by
  unfold moved
  rw [Function.update_of_ne hy, Function.update_of_ne hx]

omit [DecidableEq X] [DecidableEq Q] in
/-- A token elsewhere stays where it is. -/
theorem stays (hu : place u = some z) (hd : place d = some z') (hz : z ≠ z')
    (o : Option (Spot W T X Q)) : Function.update place d o u = some z := by
  have hne : u ≠ d := by
    rintro rfl
    rw [hu] at hd
    exact hz (Option.some.inj hd)
  rwa [Function.update_of_ne hne]

omit [DecidableEq W] [DecidableEq T] [DecidableEq A] [DecidableEq X] [DecidableEq Q] in
theorem allowed_hand (hd : Allowed d z) (hz : ∀ v, z.own = some v → v = w) :
    Allowed d (.hand w : Spot W T X Q) := by
  cases d with
  | root v =>
      have hv : z.own = some v := hd
      exact congrArg some (hz v hv).symm
  | ult t => trivial
  | async a => trivial

omit [DecidableEq W] [DecidableEq T] [DecidableEq A] [DecidableEq X] [DecidableEq Q] in
theorem allowed_queue (hd : d.isRoot = false) (q : Q) :
    Allowed d (.queue q : Spot W T X Q) := by
  cases d with
  | root v => cases hd
  | ult t => trivial
  | async a => trivial

omit [DecidableEq W] [DecidableEq T] [DecidableEq A] [DecidableEq X] [DecidableEq Q] in
/-- The loop of a worker is only in the worker's cells. -/
theorem not_root (hd : Allowed d z) (hz : z.own = none) : d.isRoot = false := by
  cases d with
  | root v =>
      have hv : z.own = some v := hd
      rw [hz] at hv
      cases hv
  | ult t => rfl
  | async a => rfl

omit [DecidableEq W] [DecidableEq T] [DecidableEq A] [DecidableEq X] [DecidableEq M]
  [DecidableEq Q] in
theorem run_target (h : s.pc w = .run c) : (s.pc w).target = none := by
  rw [h]
  rfl

omit [DecidableEq W] [DecidableEq T] [DecidableEq A] [DecidableEq X] [DecidableEq M]
  [DecidableEq Q] in
theorem run_tentative (h : s.pc w = .run .body) : (s.pc w).tentative = false := by
  rw [h]
  rfl

omit [DecidableEq W] [DecidableEq T] [DecidableEq A] [DecidableEq X] [DecidableEq M]
  [DecidableEq Q] in
/-- User code outside of callbacks is a ULT's. -/
theorem acts_body (hg : s.acts w u c) (hout : c.inCallback = false) :
    s.pc w = .run .body ∧ s.tokens (.cur w) = [u] ∧ c = .body ∧ ∃ t, u = .ult t := by
  obtain ⟨hpc, hcur, huser, hult⟩ := hg
  have hbody : c = .body := by
    cases c with
    | body => rfl
    | entry | unlocking m back | callback m wk onto => cases huser
    | called wk onto | asked u n d wk c onto => cases hout
  rw [hbody] at hpc
  have hu := hult hbody
  cases u with
  | ult t => exact ⟨hpc, hcur, hbody, t, rfl⟩
  | root v | async a => cases hu

omit [DecidableEq W] [DecidableEq T] [DecidableEq A] [DecidableEq X] [DecidableEq M]
  [DecidableEq Q] in
/-- A worker that runs has nothing in hand. -/
theorem Inv.still (h : Inv s place) (hpc : s.pc w = .run c) : Still place w := by
  have hdo := h.doing w
  rw [hpc] at hdo
  exact hdo.1

omit [DecidableEq W] [DecidableEq T] [DecidableEq A] [DecidableEq X] [DecidableEq M]
  [DecidableEq Q] in
theorem Inv.stands (h : Inv s place) (hpc : s.pc w = .run c) : c.Stands place w := by
  have hdo := h.doing w
  rw [hpc] at hdo
  exact hdo.2

omit [DecidableEq W] [DecidableEq T] [DecidableEq A] [DecidableEq X] [DecidableEq M]
  [DecidableEq Q] in
theorem Inv.cur_eq (h : Inv s place) (hd : place d = some (.cur w))
    (he : place n = some (.cur w)) : d = n :=
  h.spots.single _ d n rfl hd he

end Small

/-! ### Switches that begin -/

section Begin

omit [DecidableEq W] [DecidableEq T] [DecidableEq A] [DecidableEq X] [DecidableEq M]
  [DecidableEq Q] in
/-- A ULT that runs begins a switch. -/
theorem Inv.calls (h : Inv s place) (hpc : s.pc w = .run c) (hcur : s.tokens (.cur w) = [.ult t])
    (hop : op.proper) (hc : c.going) : Doing place w (.calling (.ult t) op c) :=
  ⟨h.still hpc, h.spots.at_of_eq hcur, ⟨t, rfl⟩, hop, hc⟩

theorem inv_suspendToSched
    (h : Inv s place) (hg : guard loc node s (.suspendToSched w u dest k c))
    (hout : c.inCallback = false) : Inv (next loc s (.suspendToSched w u dest k c)) place := by
  obtain ⟨hact, hsus, hfree⟩ := hg
  obtain ⟨hpc, hcur, rfl, t, rfl⟩ := acts_body hact hout
  have hop : (Op.suspend dest k).proper := by
    cases dest with
    | queue => exact .inl rfl
    | slot x => exact .inr ⟨x, rfl⟩
    | join t | park | root => cases k <;> exact hsus.elim
  refine h.goto (views_giveUp s k dest (some w) w _) (h.calls hpc hcur hop ⟨trivial, nofun⟩)
    (run_tentative hpc).symm ?_
  exact h.slots.begin (run_target hpc) rfl hfree fun x hx => h.spots.nil_iff.mp hx

theorem inv_condSuspendToSched (h : Inv s place)
    (hg : guard loc node s (.condSuspendToSched w u dest c)) (hout : c.inCallback = false) :
    Inv (next loc s (.condSuspendToSched w u dest c)) place := by
  obtain ⟨hact, hcond, hfree, -⟩ := hg
  obtain ⟨hpc, hcur, rfl, t, rfl⟩ := acts_body hact hout
  have hop : (Op.cond dest : Op T X M).proper := by
    rintro rfl
    exact hcond
  refine h.goto (views_consume s dest (some w) w _) (h.calls hpc hcur hop ⟨trivial, nofun⟩)
    (run_tentative hpc).symm ?_
  exact h.slots.begin (run_target hpc) rfl hfree fun x hx => h.spots.nil_iff.mp hx

omit [DecidableEq T] [DecidableEq A] [DecidableEq X] [DecidableEq M] [DecidableEq Q] in
/-- The two ways to exit through the scheduler. -/
theorem Inv.exits (h : Inv s place) (hg : s.acts w (.ult t) .body) (e : Exit) :
    Inv (s.goto w (.calling (.ult t) (.exit e) .body)) place := by
  obtain ⟨hpc, hcur, -⟩ := hg
  exact h.goto ⟨rfl, rfl, rfl, rfl, rfl, rfl⟩ (h.calls hpc hcur trivial ⟨trivial, nofun⟩)
    (run_tentative hpc).symm (h.slots.keep (run_target hpc).symm)

/-- The loop of a worker drops no guard, so outside of callbacks it is a ULT
    that yields. -/
theorem inv_spinYield (h : Inv s place) (hg : guard loc node s (.spinYield w u m c))
    (hout : c.inCallback = false) : Inv (next loc s (.spinYield w u m c)) place := by
  obtain ⟨hpc, hcur, hspin, -⟩ := hg
  have hstands := h.stands hpc
  -- Only the drop of a guard spins, inside a callback or outside of one.
  cases c with
  | entry | body | called wk onto | asked u n d wk c onto => exact absurd hspin id
  | callback m' wk onto => cases hout
  | unlocking m' back =>
      obtain ⟨huser, -, hult⟩ := hstands
      have hback : back = .body := by
        cases back with
        | body => rfl
        | entry | unlocking m back | callback m wk onto => cases huser
        | called wk onto | asked u n d wk c onto => cases hout
      rcases hult hback with ⟨t, ht⟩
      have hu : u = .ult t := h.cur_eq (h.spots.at_of_eq hcur) ht
      subst hu hback
      exact h.goto ⟨rfl, rfl, rfl, rfl, rfl, rfl⟩ (h.calls hpc hcur (.inl rfl) ⟨rfl, nofun⟩)
        (by rw [hpc]; rfl) (h.slots.keep (run_target hpc).symm)

/-- The mutex is free. -/
theorem inv_lock (h : Inv s place) : Inv (next loc s (.lock w u m x c)) place :=
  h.same ⟨rfl, rfl, rfl, rfl, rfl, rfl⟩

/-- The node is queued, and its ULT waits. -/
theorem inv_lockWait (h : Inv s place) (hg : guard loc node s (.lockWait w u m x c))
    (hout : c.inCallback = false) : Inv (next loc s (.lockWait w u m x c)) place := by
  obtain ⟨hact, -, -, hfree, -⟩ := hg
  obtain ⟨hpc, hcur, rfl, t, rfl⟩ := acts_body hact hout
  have hclaims := h.slots.begin (p := .calling (.ult t) (.suspend (.slot x) (.link x)) .body)
    (run_target hpc) rfl hfree fun x hx => h.spots.nil_iff.mp hx
  exact h.goto ⟨rfl, rfl, rfl, rfl, rfl, rfl⟩ (h.calls hpc hcur (.inr ⟨x, rfl⟩) ⟨trivial, nofun⟩)
    (run_tentative hpc).symm hclaims

/-- Also in a callback: the drop spins on the same worker. -/
theorem inv_dropGuard (h : Inv s place) (hg : guard loc node s (.dropGuard w u m c)) :
    Inv (next loc s (.dropGuard w u m c)) place := by
  obtain ⟨⟨hpc, hcur, huser, hult⟩, -⟩ := hg
  have hstands : (Ctx.unlocking m c).Stands place w := by
    refine ⟨huser, h.stands hpc, fun hbody => ?_⟩
    have hu := hult hbody
    cases u with
    | ult t => exact ⟨t, h.spots.at_of_eq hcur⟩
    | root v | async a => cases hu
  unfold next
  dsimp only
  split
  · exact h.same ⟨rfl, rfl, rfl, rfl, rfl, rfl⟩
  · exact h.goto (p := .run (.unlocking m c)) ⟨rfl, rfl, rfl, rfl, rfl, rfl⟩
      ⟨h.still hpc, hstands⟩ (by rw [hpc]; rfl) (h.slots.keep (run_target hpc).symm)

end Begin

/-! ### The next task -/

section Hand

omit [DecidableEq M] in
/-- A task is taken into the hand of a worker that has nothing there. -/
theorem Inv.grab {s' : State W T A X M Q} {b : X → Option W} (h : Inv s place)
    (hs : s'.Views (moved s.tokens n z (.hand w)) s.live s.ctx (Function.update s.pc w p)
      s.handed b)
    (hn : place n = some z) (hz : ∀ v, z.own = some v → v = w) (hzc : z.isCur = false)
    (hempty : Empty place (.hand w)) (hdo : Doing (Function.update place n (some (.hand w))) w p)
    (htent : p.tentative = (s.pc w).tentative)
    (hslots : Claims b (Function.update s.pc w p) place) :
    Inv s' (Function.update place n (some (.hand w))) := by
  have hne : Spot.hand w ≠ z := by
    rintro rfl
    exact hempty n hn
  exact h.shift hs hn hne (fun _ => hempty) (allowed_hand (h.spots.allowed n z hn) hz) hz
    (fun v hv => (Option.some.inj hv).symm) hzc hdo htent (hslots.put nofun)

omit [DecidableEq M] [DecidableEq X] [DecidableEq Q] in
/-- And the worker that calls, with the task current, is going to switch. -/
theorem picked_of (hprev : Empty place (.prev w)) (hu : place u = some (.cur w))
    (hcall : Caller w u op) (hc : Suits u c) (hne : c ≠ .entry) (hn : place n = some z)
    (hz : z ≠ .cur w) (hp : n.isPollFn = false) :
    Doing (Function.update place n (some (.hand w))) w (.picked u op c : Pc W T A X M) :=
  ⟨empty_update hprev nofun, stays hu hn hz.symm _, hcall, hc, hne, n, Function.update_self .., hp⟩

theorem inv_runOn (h : Inv s place) {v : W} (hg : guard loc node s (.runOn w v q d)) :
    ∃ place', Inv (next loc s (.runOn w v q d)) place' := by
  obtain ⟨hpc, hcur, hd, hp⟩ := hg
  have hdq := h.spots.at_iff.mp hd
  have hv := h.spots.at_of_eq hcur
  obtain ⟨hhand, hprev⟩ := h.still hpc
  have hvw : v = w := h.spots.own_root hv rfl
  subst hvw
  refine ⟨_, h.grab ⟨rfl, rfl, rfl, rfl, rfl, rfl⟩ hdq nofun rfl hhand ?_
    (run_tentative hpc).symm (h.slots.keep (run_target hpc).symm)⟩
  exact picked_of hprev hv (.inl ⟨rfl, rfl⟩) ⟨trivial, .inl rfl⟩ nofun hdq nofun hp

theorem inv_exitToCont (h : Inv s place) (hg : guard loc node s (.exitToCont w t n)) :
    ∃ place', Inv (next loc s (.exitToCont w t n)) place' := by
  obtain ⟨⟨hpc, hcur, -⟩, hn⟩ := hg
  have hnj := h.spots.at_of_eq hn
  obtain ⟨hhand, hprev⟩ := h.still hpc
  refine ⟨_, h.grab ⟨rfl, rfl, rfl, rfl, rfl, rfl⟩ hnj nofun rfl hhand ?_
    (run_tentative hpc).symm (h.slots.keep (run_target hpc).symm)⟩
  exact picked_of hprev (h.spots.at_of_eq hcur) (.inr ⟨⟨t, rfl⟩, trivial⟩) ⟨trivial, .inl rfl⟩
    nofun hnj nofun (h.spots.not_async hnj fun _ => id)

theorem inv_enter (h : Inv s place) (hg : guard loc node s (.enter w u x n c))
    (hout : c.inCallback = false) : ∃ place', Inv (next loc s (.enter w u x n c)) place' := by
  obtain ⟨hact, -, hn⟩ := hg
  obtain ⟨hpc, hcur, rfl, t, rfl⟩ := acts_body hact hout
  have hnx := h.spots.at_of_eq hn
  obtain ⟨hhand, hprev⟩ := h.still hpc
  refine ⟨_, h.grab ⟨rfl, rfl, rfl, rfl, rfl, rfl⟩ hnx nofun rfl hhand ?_
    (run_tentative hpc).symm (h.slots.keep (run_target hpc).symm)⟩
  exact picked_of hprev (h.spots.at_of_eq hcur) (.inr ⟨⟨t, rfl⟩, .inl rfl⟩)
    ⟨trivial, .inl rfl⟩ nofun hnx nofun (h.spots.not_async hnx fun _ => id)

theorem inv_swap (h : Inv s place) (hg : guard loc node s (.swap w u x y n c))
    (hout : c.inCallback = false) : ∃ place', Inv (next loc s (.swap w u x y n c)) place' := by
  obtain ⟨hact, -, -, hfree, hn⟩ := hg
  obtain ⟨hpc, hcur, rfl, t, rfl⟩ := acts_body hact hout
  have hny := h.spots.at_of_eq hn
  obtain ⟨hhand, hprev⟩ := h.still hpc
  have hclaims := h.slots.begin
    (p := .picked (.ult t) (.suspend (.slot x) .nothing) .body)
    (run_target hpc) rfl hfree fun x hx => h.spots.nil_iff.mp hx
  refine ⟨_, h.grab ⟨rfl, rfl, rfl, rfl, rfl, rfl⟩ hny nofun rfl hhand ?_
    (run_tentative hpc).symm hclaims⟩
  exact picked_of hprev (h.spots.at_of_eq hcur) (.inr ⟨⟨t, rfl⟩, .inr ⟨x, rfl⟩⟩)
    ⟨trivial, .inl rfl⟩ nofun hny nofun (h.spots.not_async hny fun _ => id)

theorem inv_switchNext (h : Inv s place) (hg : guard loc node s (.switchNext w u op c q d)) :
    ∃ place', Inv (next loc s (.switchNext w u op c q d)) place' := by
  obtain ⟨hpc, hd⟩ := hg
  have hdq := h.spots.at_iff.mp hd
  have hdo := h.doing w
  rw [hpc] at hdo
  obtain ⟨⟨hhand, hprev⟩, hu, hult, hop, hc⟩ := hdo
  have htarget : ∀ b : Bool, (if b then .bounced u op c else .picked u op c :
      Pc W T A X M).target = (s.pc w).target := by
    intro b
    rw [hpc]
    cases b <;> rfl
  have htent : ∀ b : Bool, (if b then .bounced u op c else .picked u op c :
      Pc W T A X M).tentative = (s.pc w).tentative := by
    intro b
    rw [hpc]
    cases b <;> rfl
  refine ⟨_, h.grab ⟨rfl, rfl, rfl, rfl, rfl, rfl⟩ hdq nofun rfl hhand ?_ (htent d.isPollFn)
    (h.slots.keep (htarget d.isPollFn))⟩
  -- A poll function bounces to the root; a context is switched to.
  cases hp : d.isPollFn with
  | true =>
      exact ⟨empty_update hprev nofun, stays hu hdq nofun _, hult, hop, hc, d,
        Function.update_self .., hp⟩
  | false => exact picked_of hprev hu (.inr ⟨hult, hop⟩) ⟨hc.1, .inr hult⟩ hc.2 hdq nofun hp

theorem inv_takeRootCont (h : Inv s place) (hg : guard loc node s (.takeRootCont w u op c n)) :
    ∃ place', Inv (next loc s (.takeRootCont w u op c n)) place' := by
  obtain ⟨hpc, hn⟩ := hg
  have hnr := h.spots.at_of_eq hn
  have hdo := h.doing w
  rw [hpc] at hdo
  obtain ⟨⟨hhand, hprev⟩, hu, hult, hop, hc⟩ := hdo
  refine ⟨_, h.grab ⟨rfl, rfl, rfl, rfl, rfl, rfl⟩ hnr (fun v hv => (Option.some.inj hv).symm)
    rfl hhand ?_ (by rw [hpc]; rfl) (h.slots.keep (by rw [hpc]; rfl))⟩
  exact picked_of hprev hu (.inr ⟨hult, hop⟩) ⟨hc.1, .inr hult⟩ hc.2 hnr nofun
    (h.spots.not_async hnr fun _ => id)

/-- The async task is put back first, and then the root is taken as if there had
    been nothing. -/
theorem inv_pushBack (h : Inv s place) (hg : guard loc node s (.pushBack w u op c d n)) :
    ∃ place', Inv (next loc s (.pushBack w u op c d n)) place' := by
  obtain ⟨hpc, hd, hn⟩ := hg
  have hdh := h.spots.at_of_eq hd
  have hdo := h.doing w
  rw [hpc] at hdo
  obtain ⟨hprev, hu, hult, hop, hc, e, he, hpoll⟩ := hdo
  have hed : e = d := h.spots.single _ e d rfl he hdh
  subst hed
  have hroot : e.isRoot = false := by
    cases e with
    | async a => rfl
    | root v | ult t => cases hpoll
  -- `s1` is between the two: the task is queued again, and the root token is still there.
  let s1 := (s.move e (.hand w) (.queue (loc w))).goto w (.calling u op c)
  have hcalling : Doing (Function.update place e (some (.queue (loc w)))) w
      (.calling u op c : Pc W T A X M) :=
    ⟨⟨empty_left (fun e' he' => h.spots.single _ e' e rfl he' he) nofun,
      empty_update hprev nofun⟩, stays hu he nofun _, hult, hop, hc⟩
  have h1 : Inv s1 (Function.update place e (some (.queue (loc w)))) :=
    h.shift ⟨rfl, rfl, rfl, rfl, rfl, rfl⟩ he nofun nofun (allowed_queue hroot _)
      (fun v hv => (Option.some.inj hv).symm) nofun rfl hcalling (by rw [hpc]; rfl)
      ((h.slots.keep (by rw [hpc]; rfl)).put nofun)
  have hn1 : s1.tokens (.rootCont w) = [n] := by
    have hsame := moved_of_ne (d := e) (f := s.tokens) (x := .hand w) (y := .queue (loc w))
      (z := .rootCont w) nofun nofun
    exact hsame.trans hn
  have htake : guard loc node s1 (.takeRootCont w u op c n) :=
    ⟨Function.update_self w _ s.pc, hn1⟩
  rcases inv_takeRootCont h1 htake with ⟨place', h2⟩
  refine ⟨place', h2.same ⟨rfl, rfl, rfl, ?_, rfl, rfl⟩⟩
  exact (Function.update_idem _ _ s.pc).symm

end Hand

/-! ### The switch -/

section Switch

omit [DecidableEq M] in
/-- The shim leaves the current task to its callback and makes the task in hand
    current. -/
theorem Inv.switch {s' : State W T A X M Q} {ctx : Desc W T A → Option (Ctx W T A X M)}
    (h : Inv s place)
    (hs : s'.Views (moved (moved s.tokens u (.cur w) (.prev w)) n (.hand w) (.cur w)) s.live ctx
      (Function.update s.pc w p) s.handed s.claimed)
    (hu : place u = some (.cur w)) (hn : place n = some (.hand w))
    (hprev : Empty place (.prev w)) (hpoll : n.isPollFn = false)
    (hctxu : ctx u ≠ none) (hctxn : ctx n = none ↔ p.tentative = false)
    (hctx : ∀ e, e ≠ u → e ≠ n → ctx e = s.ctx e) (hsuits : ∀ e c, ctx e = some c → Suits e c)
    (htarget : p.target = (s.pc w).target)
    (hdo : ∀ place' : Desc W T A → Option (Spot W T X Q), place' u = some (.prev w) →
      place' n = some (.cur w) → Empty place' (.hand w) → Doing place' w p) :
    ∃ place', Inv s' place' := by
  have hnu : n ≠ u := by
    rintro rfl
    rw [hu] at hn
    cases hn
  have hupoll := h.spots.not_async hu fun _ => id
  -- First the current task goes to `prev`, and then the one in hand becomes current.
  let place1 := Function.update place u (some (.prev w))
  let place2 := Function.update place1 n (some (.cur w))
  have hallow : ∀ e : Desc W T A, ∀ z z' : Spot W T X Q, place e = some z → z.own = some w →
      z'.own = some w → e.isPollFn = false → z' ≠ .rootCont w → Allowed e z' := by
    intro e z z' he hz hz' hp hr
    have ha := h.spots.allowed e z he
    cases e with
    | async a => cases hp
    | root v => exact hz'.trans (hz.symm.trans ha)
    | ult t =>
        cases z' with
        | rootCont v => exact absurd (congrArg Spot.rootCont (Option.some.inj hz')) hr
        | cur v | hand v | prev v => trivial
        | _ => cases hz'
  have h1 : Spots (moved s.tokens u (.cur w) (.prev w)) s.live place1 :=
    h.spots.move hu nofun (fun _ => hprev) (hallow u _ _ hu rfl rfl hupoll nofun)
  have hn1 : place1 n = some (.hand w) := by
    change Function.update place u _ n = _
    rwa [Function.update_of_ne hnu]
  have hcur1 : Empty place1 (.cur w) := empty_left (fun e he => h.cur_eq he hu) nofun
  have h2 : Spots (moved (moved s.tokens u (.cur w) (.prev w)) n (.hand w) (.cur w)) s.live
      place2 := h1.move hn1 nofun (fun _ => hcur1) (hallow n _ _ hn rfl rfl hpoll nofun)
  have hu2 : place2 u = some (.prev w) := by
    change Function.update place1 n _ u = _
    rw [Function.update_of_ne hnu.symm]
    exact Function.update_self ..
  have hn2 : place2 n = some (.cur w) := Function.update_self ..
  have hhand2 : Empty place2 (.hand w) :=
    empty_left (fun e he => h1.single _ e n rfl he hn1) nofun
  have hslots1 : Claims s.claimed s.pc place1 := h.slots.put nofun
  have hslots2 : Claims s.claimed s.pc place2 := hslots1.put nofun
  -- All the others stay where they are.
  have helse : ∀ e z, e ≠ u → e ≠ n → (place2 e = some z ↔ place e = some z) := by
    intro e z heu hen
    change Function.update (Function.update place u _) n _ e = some z ↔ _
    rw [Function.update_of_ne hen, Function.update_of_ne heu]
  have hothers : ∀ v e, v ≠ w → place e = some (.cur v) → e ≠ u ∧ e ≠ n := by
    intro v e hv he
    refine ⟨?_, ?_⟩
    · rintro rfl
      rw [hu] at he
      cases he
      exact hv rfl
    · rintro rfl
      rw [hn] at he
      cases he
  refine ⟨place2, h.step hs h2 (fun v hv => ?_) (hdo place2 hu2 hn2 hhand2)
    ⟨n, hn2, hctxn⟩ (fun v e hv he => hctx e (hothers v e hv he).1 (hothers v e hv he).2) ?_
    hsuits (hslots2.keep htarget)⟩
  · -- Both moves are between cells of this worker.
    refine (agree_update (fun z hz hown => ?_) (fun z hz hown => ?_)).trans
      (agree_update (fun z hz hown => ?_) (fun z hz hown => ?_))
    · rw [hu] at hz
      cases hz
      exact hv (Option.some.inj hown).symm
    · cases hz
      exact hv (Option.some.inj hown).symm
    · have hz' := hn1.symm.trans hz
      cases hz'
      exact hv (Option.some.inj hown).symm
    · cases hz
      exact hv (Option.some.inj hown).symm
  · intro e z he hz hp
    by_cases heu : e = u
    · rw [heu]
      exact hctxu
    · have hen : e ≠ n := by
        rintro rfl
        rw [hn2] at he
        cases he
        cases hz
      rw [hctx e heu hen]
      exact h.saved e z ((helse e z heu hen).mp he) hz hp

theorem inv_suspendShim (h : Inv s place)
    (hg : guard loc node s (.suspendShim w u n dest k c onto)) :
    ∃ place', Inv (next loc s (.suspendShim w u n dest k c onto)) place' := by
  obtain ⟨hpc, hu, hn, honto⟩ := hg
  have hu := h.spots.at_of_eq hu
  have hn := h.spots.at_of_eq hn
  have hdo := h.doing w
  rw [hpc] at hdo
  obtain ⟨hprev, -, hcall, hsuit, hne, e, he, hpoll⟩ := hdo
  rw [h.spots.single _ e n rfl he hn] at hpoll
  have hnu : n ≠ u := by
    rintro rfl
    rw [hu] at hn
    cases hn
  -- The context is saved with the callback that is to run.
  have hs : (next loc s (.suspendShim w u n dest k c onto)).Views
      (moved (moved s.tokens u (.cur w) (.prev w)) n (.hand w) (.cur w)) s.live
      (Function.update (Function.update s.ctx n none) u (some c))
      (Function.update s.pc w (.publish u dest k w onto)) s.handed s.claimed :=
    ⟨rfl, rfl, rfl, rfl, rfl, rfl⟩
  refine h.switch hs hu hn hprev hpoll ?_ ?_ ?_ ?_ (by rw [hpc]; rfl) ?_
  · rw [Function.update_self]
    nofun
  · rw [Function.update_of_ne hnu, Function.update_self]
    exact iff_of_true rfl rfl
  · intro e heu hen
    rw [Function.update_of_ne heu, Function.update_of_ne hen]
  · intro e c' hc
    by_cases heu : e = u
    · rw [heu, Function.update_self] at hc
      cases hc
      rw [heu]
      exact hsuit
    · rw [Function.update_of_ne heu] at hc
      by_cases hen : e = n
      · rw [hen, Function.update_self] at hc
        cases hc
      · rw [Function.update_of_ne hen] at hc
        exact h.suits e c' hc
  · intro place' hu' hn' hhand'
    exact ⟨hhand', hu', hcall, rfl, n, hn', h.suits n onto honto⟩

theorem inv_condSuspendShim (h : Inv s place)
    (hg : guard loc node s (.condSuspendShim w u n dest c onto)) :
    ∃ place', Inv (next loc s (.condSuspendShim w u n dest c onto)) place' := by
  obtain ⟨hpc, hu, hn, honto⟩ := hg
  have hu := h.spots.at_of_eq hu
  have hn := h.spots.at_of_eq hn
  have hdo := h.doing w
  rw [hpc] at hdo
  obtain ⟨hprev, -, hcall, hsuit, hne, e, he, hpoll⟩ := hdo
  rw [h.spots.single _ e n rfl he hn] at hpoll
  have hnu : n ≠ u := by
    rintro rfl
    rw [hu] at hn
    cases hn
  -- What is suspended on a condition is a ULT, and never the calling context.
  have hult : (∃ t, u = .ult t) ∧ dest ≠ .root := by
    rcases hcall with ⟨-, hop⟩ | hult
    · cases hop
    · exact hult
  have hs : (next loc s (.condSuspendShim w u n dest c onto)).Views
      (moved (moved s.tokens u (.cur w) (.prev w)) n (.hand w) (.cur w)) s.live
      (Function.update s.ctx u (some c)) (Function.update s.pc w (.deciding u n dest c onto))
      s.handed s.claimed := ⟨rfl, rfl, rfl, rfl, rfl, rfl⟩
  refine h.switch hs hu hn hprev hpoll ?_ ?_ ?_ ?_ (by rw [hpc]; rfl) ?_
  · rw [Function.update_self]
    nofun
  · rw [Function.update_of_ne hnu, honto]
    exact iff_of_false nofun nofun
  · intro e heu _
    rw [Function.update_of_ne heu]
  · intro e c' hc
    by_cases heu : e = u
    · rw [heu, Function.update_self] at hc
      cases hc
      rw [heu]
      exact hsuit
    · rw [Function.update_of_ne heu] at hc
      exact h.suits e c' hc
  · intro place' hu' hn' hhand'
    exact ⟨hhand', hu', hn', hult.1, hult.2, ⟨hsuit.1, hne⟩, h.suits n onto honto⟩

/-- The task that exits is nobody's any more. -/
theorem inv_exitShim {ex : Exit} (h : Inv s place)
    (hg : guard loc node s (.exitShim w t n ex c onto)) :
    ∃ place', Inv (next loc s (.exitShim w t n ex c onto)) place' := by
  obtain ⟨hpc, hu, hn, honto⟩ := hg
  have hu := h.spots.at_of_eq hu
  have hn := h.spots.at_of_eq hn
  have hdo := h.doing w
  rw [hpc] at hdo
  obtain ⟨hprev, -, -, -, -, e, he, hpoll⟩ := hdo
  rw [h.spots.single _ e n rfl he hn] at hpoll
  have hnu : n ≠ .ult t := by
    rintro rfl
    rw [hu] at hn
    cases hn
  -- First the task that exits is taken out, and then the one in hand becomes current.
  let place1 := Function.update place (.ult t) none
  let place2 := Function.update place1 n (some (.cur w))
  have h1 : Spots (removed s.tokens (.ult t) (.cur w)) (Function.update s.live (.ult t) false)
      place1 := h.spots.take hu rfl
  have hn1 : place1 n = some (.hand w) := by
    change Function.update place _ _ n = _
    rwa [Function.update_of_ne hnu]
  have hcur1 : Empty place1 (.cur w) := empty_left (fun e he => h.cur_eq he hu) nofun
  have hallow : Allowed n (.cur w : Spot W T X Q) := by
    have ha := h.spots.allowed n _ hn
    cases n with
    | async a => cases hpoll
    | root v => exact ha
    | ult t' => trivial
  have h2 : Spots (moved (removed s.tokens (.ult t) (.cur w)) n (.hand w) (.cur w))
      (Function.update s.live (.ult t) false) place2 :=
    h1.move hn1 nofun (fun _ => hcur1) hallow
  have hn2 : place2 n = some (.cur w) := Function.update_self ..
  -- Cells other than `cur` that were empty stay empty.
  have hempty : ∀ x, x ≠ .cur w → Empty place x → Empty place2 x := by
    intro x hx hemp e he
    by_cases hen : e = n
    · rw [hen, hn2] at he
      exact hx (Option.some.inj he).symm
    · have he1 : place1 e = some x := by
        rwa [← Function.update_of_ne hen (some (Spot.cur w)) place1]
      by_cases heu : e = .ult t
      · rw [heu] at he1
        change Function.update place _ _ _ = _ at he1
        rw [Function.update_self] at he1
        cases he1
      · refine hemp e ?_
        rwa [← Function.update_of_ne heu none place]
  have hhand2 : Empty place2 (.hand w) :=
    empty_left (fun e he => h1.single _ e n rfl he hn1) nofun
  -- Nobody has the context of what goes on.
  have hsuits : ∀ e c', Function.update s.ctx n none e = some c' → Suits e c' := by
    intro e c' hc
    by_cases hen : e = n
    · rw [hen, Function.update_self] at hc
      cases hc
    · rw [Function.update_of_ne hen] at hc
      exact h.suits e c' hc
  have hslots1 : Claims s.claimed s.pc place1 := h.slots.gone
  have hslots2 : Claims s.claimed s.pc place2 := hslots1.put nofun
  refine ⟨place2, h.step (w := w) (p := .exiting ex t w onto) ⟨rfl, rfl, rfl, rfl, rfl, rfl⟩ h2
    ?_ ⟨⟨hhand2, hempty _ nofun hprev⟩, rfl, n, hn2, h.suits n onto honto⟩
    ⟨n, hn2, iff_of_true (Function.update_self ..) rfl⟩ ?_ ?_ hsuits
    (hslots2.keep (by rw [hpc]; rfl))⟩
  · intro v hv
    refine (agree_update (o := none) (fun z hz hown => ?_) (fun z hz => ?_)).trans
      (agree_update (fun z hz hown => ?_) (fun z hz hown => ?_))
    · rw [hu] at hz
      cases hz
      exact hv (Option.some.inj hown).symm
    · cases hz
    · have hz' := hn1.symm.trans hz
      cases hz'
      exact hv (Option.some.inj hown).symm
    · cases hz
      exact hv (Option.some.inj hown).symm
  · intro v e hv he
    refine Function.update_of_ne ?_ _ _
    rintro rfl
    rw [hn] at he
    cases he
  · intro e z he hz hp
    have hen : e ≠ n := by
      rintro rfl
      rw [hn2] at he
      cases he
      cases hz
    have he1 : place1 e = some z := by
      rwa [← Function.update_of_ne hen (some (Spot.cur w)) place1]
    have heu : e ≠ .ult t := by
      rintro rfl
      change Function.update place _ _ _ = _ at he1
      rw [Function.update_self] at he1
      cases he1
    change Function.update s.ctx n none e ≠ none
    rw [Function.update_of_ne hen]
    refine h.saved e z ?_ hz hp
    rwa [← Function.update_of_ne heu none place]

/-- The child is current at once, and the parent is left to the callback. -/
theorem inv_spawn (h : Inv s place) (hg : guard loc node s (.spawn w u t' c))
    (hout : c.inCallback = false) : ∃ place', Inv (next loc s (.spawn w u t' c)) place' := by
  obtain ⟨hact, hlive⟩ := hg
  obtain ⟨hpc, hu, rfl, t, rfl⟩ := acts_body hact hout
  have hu := h.spots.at_of_eq hu
  obtain ⟨hhand, hprev⟩ := h.still hpc
  have hnone : place (.ult t') = none := by
    by_contra hne
    rw [(h.spots.live _).mpr hne] at hlive
    cases hlive
  have hne : (Desc.ult t : Desc W T A) ≠ .ult t' := by
    intro he
    rw [he, hnone] at hu
    cases hu
  -- The parent goes to `prev`, and the child is new at `cur`.
  let place1 := Function.update place (.ult t) (some (.prev w))
  let place2 := Function.update place1 (.ult t') (some (.cur w))
  have h1 : Spots (moved s.tokens (.ult t) (.cur w) (.prev w)) s.live place1 :=
    h.spots.move hu nofun (fun _ => hprev) trivial
  have hnone1 : place1 (.ult t') = none := by
    change Function.update place _ _ _ = _
    rwa [Function.update_of_ne hne.symm]
  have hcur1 : Empty place1 (.cur w) := empty_left (fun e he => h.cur_eq he hu) nofun
  have h2 := h1.put hnone1 (fun _ => hcur1) (trivial : Allowed (.ult t') (.cur w : Spot W T X Q))
  have hu2 : place2 (.ult t) = some (.prev w) := by
    change Function.update place1 _ _ _ = _
    rw [Function.update_of_ne hne]
    exact Function.update_self ..
  have hn2 : place2 (.ult t') = some (.cur w) := Function.update_self ..
  have hhand2 : Empty place2 (.hand w) := empty_update (empty_update hhand nofun) nofun
  have hslots1 : Claims s.claimed s.pc place1 := h.slots.put nofun
  have hslots2 : Claims s.claimed s.pc place2 := hslots1.put nofun
  refine ⟨place2, h.step (w := w) (p := .publish (.ult t) .queue .nothing w .body)
    ⟨rfl, rfl, rfl, rfl, rfl, rfl⟩ h2 ?_
    ⟨hhand2, hu2, .inr ⟨⟨t, rfl⟩, .inl rfl⟩, rfl, .ult t', hn2, trivial, .inl rfl⟩
    ⟨.ult t', hn2, iff_of_true (Function.update_self ..) rfl⟩ ?_ ?_ ?_
    (hslots2.keep (run_target hpc).symm)⟩
  · intro v hv
    refine (agree_update (fun z hz hown => ?_) (fun z hz hown => ?_)).trans
      (agree_update (fun z hz hown => ?_) (fun z hz hown => ?_))
    · rw [hu] at hz
      cases hz
      exact hv (Option.some.inj hown).symm
    · cases hz
      exact hv (Option.some.inj hown).symm
    · have hz' := hnone1.symm.trans hz
      cases hz'
    · cases hz
      exact hv (Option.some.inj hown).symm
  · intro v e hv he
    have he' : e ≠ .ult t' := by
      rintro rfl
      rw [hnone] at he
      cases he
    have he1 : e ≠ .ult t := by
      rintro rfl
      rw [hu] at he
      cases he
      exact hv rfl
    change Function.update (Function.update s.ctx _ _) _ _ e = _
    rw [Function.update_of_ne he', Function.update_of_ne he1]
  · intro e z he hz hp
    have he' : e ≠ .ult t' := by
      rintro rfl
      rw [hn2] at he
      cases he
      cases hz
    change Function.update (Function.update s.ctx _ _) _ _ e ≠ _
    rw [Function.update_of_ne he']
    by_cases he1 : e = .ult t
    · rw [he1, Function.update_self]
      nofun
    · rw [Function.update_of_ne he1]
      have hp1 : place1 e = some z := by
        rwa [← Function.update_of_ne he' (some (Spot.cur w)) place1]
      refine h.saved e z ?_ hz hp
      rwa [← Function.update_of_ne he1 (some (Spot.prev w)) place]
  · intro e c' hc
    change Function.update (Function.update s.ctx _ _) _ _ e = _ at hc
    by_cases he' : e = .ult t'
    · rw [he', Function.update_self] at hc
      cases hc
    · rw [Function.update_of_ne he'] at hc
      by_cases he1 : e = .ult t
      · rw [he1, Function.update_self] at hc
        cases hc
        exact ⟨trivial, .inl rfl⟩
      · rw [Function.update_of_ne he1] at hc
        exact h.suits e c' hc

omit [DecidableEq M] in
/-- A cancelled suspension goes back: the task that was left is taken from where
    it has got to, and the other is in hand again. -/
theorem Inv.switchBack {s' : State W T A X M Q} (h : Inv s place)
    (hs : s'.Views (moved (moved s.tokens n (.cur w) (.hand w)) u z (.cur w)) s.live
      (Function.update s.ctx u none) (Function.update s.pc w (.cancelled u n w c)) s.handed
      s.claimed)
    (hu : place u = some z) (hn : place n = some (.cur w)) (hz : ∀ v, z.own = some v → v = w)
    (hzc : z.isCur = false) (hult : ∃ t, u = .ult t) (hc : c.going)
    (hhand : Empty place (.hand w)) (hprev : z ≠ .prev w → Empty place (.prev w))
    (hprev' : z = .prev w → ∀ e, place e = some (.prev w) → e = u)
    (htent : (s.pc w).tentative = true)
    (htarget : ∀ x, (s.pc w).target ≠ some x) : ∃ place', Inv s' place' := by
  have hnu : n ≠ u := by
    rintro rfl
    rw [hu] at hn
    cases hn
    cases hzc
  have hnpoll := h.spots.not_async hn fun _ => id
  -- First the task that had been switched to goes back into the hand, and then the other is current
  -- again.
  let place1 := Function.update place n (some (.hand w))
  let place2 := Function.update place1 u (some (.cur w))
  have hallow : Allowed n (.hand w : Spot W T X Q) :=
    allowed_hand (h.spots.allowed n _ hn) fun v hv => (Option.some.inj hv).symm
  have h1 : Spots (moved s.tokens n (.cur w) (.hand w)) s.live place1 :=
    h.spots.move hn nofun (fun _ => hhand) hallow
  have hzcur : Spot.cur w ≠ z := by
    rintro rfl
    cases hzc
  have hu1 : place1 u = some z := by
    change Function.update place _ _ u = _
    rwa [Function.update_of_ne hnu.symm]
  have hcur1 : Empty place1 (.cur w) := empty_left (fun e he => h.cur_eq he hn) nofun
  have hucur : Allowed u (.cur w : Spot W T X Q) := by
    rcases hult with ⟨t, rfl⟩
    trivial
  have h2 := h1.move hu1 hzcur (fun _ => hcur1) hucur
  have hu2 : place2 u = some (.cur w) := Function.update_self ..
  have hn2 : place2 n = some (.hand w) := by
    change Function.update place1 _ _ n = _
    rw [Function.update_of_ne hnu]
    exact Function.update_self ..
  have helse : ∀ e z, e ≠ u → e ≠ n → (place2 e = some z ↔ place e = some z) := by
    intro e z heu hen
    change Function.update (Function.update place _ _) _ _ e = some z ↔ _
    rw [Function.update_of_ne heu, Function.update_of_ne hen]
  -- Whatever was at `prev` was the task that is taken back.
  have hprev2 : Empty place2 (.prev w) := by
    intro e he
    by_cases heu : e = u
    · rw [heu, hu2] at he
      cases he
    · by_cases hen : e = n
      · rw [hen, hn2] at he
        cases he
      · have he' := (helse e _ heu hen).mp he
        by_cases hzp : z = .prev w
        · exact heu (hprev' hzp e he')
        · exact hprev hzp e he'
  have hslots1 : Claims s.claimed s.pc place1 := h.slots.put nofun
  have hslots2 : Claims s.claimed s.pc place2 := hslots1.put nofun
  -- The worker's claim on a slot has been given up.
  have hnone : (s.pc w).target = none := by
    cases ht : (s.pc w).target with
    | none => rfl
    | some x => exact absurd ht (htarget x)
  refine ⟨place2, h.step (w := w) hs h2 ?_ ⟨hprev2, rfl, hu2, hn2, hnpoll, hult, hc⟩
    ⟨u, hu2, iff_of_true (Function.update_self ..) rfl⟩ ?_ ?_ ?_ (hslots2.keep hnone.symm)⟩
  · intro v hv
    refine (agree_update (fun z' hz' hown => ?_) (fun z' hz' hown => ?_)).trans
      (agree_update (fun z' hz' hown => ?_) (fun z' hz' hown => ?_))
    · rw [hn] at hz'
      cases hz'
      exact hv (Option.some.inj hown).symm
    · cases hz'
      exact hv (Option.some.inj hown).symm
    · have hz'' := hu1.symm.trans hz'
      cases hz''
      exact hv (hz v hown)
    · cases hz'
      exact hv (Option.some.inj hown).symm
  · intro v e hv he
    refine Function.update_of_ne ?_ _ _
    rintro rfl
    rw [hu] at he
    cases he
    cases hzc
  · intro e z' he hz' hp
    have heu : e ≠ u := by
      rintro rfl
      rw [hu2] at he
      cases he
      cases hz'
    rw [Function.update_of_ne heu]
    by_cases hen : e = n
    · -- What was popped kept its context all along.
      rw [hen]
      intro hnil
      rw [h.running w n hn, htent] at hnil
      cases hnil
    · exact h.saved e z' ((helse e z' heu hen).mp he) hz' hp
  · intro e c' hc'
    by_cases heu : e = u
    · rw [heu, Function.update_self] at hc'
      cases hc'
    · rw [Function.update_of_ne heu] at hc'
      exact h.suits e c' hc'

theorem inv_retract {e : Desc W T A} (h : Inv s place)
    (hg : guard loc node s (.retract w e u n x wk c onto)) :
    ∃ place', Inv (next loc s (.retract w e u n x wk c onto)) place' := by
  obtain ⟨hpc, hu, he⟩ := hg
  have hdo := h.doing w
  rw [hpc] at hdo
  obtain ⟨⟨hhand, hprev⟩, rfl, hn, hult, hc, -⟩ := hdo
  have hen : e = n := h.cur_eq (h.spots.at_of_eq he) hn
  subst hen
  exact h.switchBack ⟨rfl, rfl, rfl, rfl, rfl, rfl⟩ (h.spots.at_of_eq hu) hn nofun rfl hult hc
    hhand (fun _ => hprev) nofun (by rw [hpc]; rfl) (by rw [hpc]; nofun)

theorem inv_cancel (h : Inv s place) (hg : guard loc node s (.cancel w u n dest c onto)) :
    ∃ place', Inv (next loc s (.cancel w u n dest c onto)) place' := by
  obtain ⟨hpc, hu, href⟩ := hg
  have hu := h.spots.at_of_eq hu
  have hdo := h.doing w
  rw [hpc] at hdo
  obtain ⟨hhand, -, hn, hult, -, hc, -⟩ := hdo
  refine h.switchBack ⟨rfl, rfl, rfl, rfl, rfl, rfl⟩ hu hn
    (fun v hv => (Option.some.inj hv).symm) rfl hult hc hhand (fun hne => absurd rfl hne)
    (fun _ e he => h.spots.single _ e u rfl he hu) (by rw [hpc]; rfl) ?_
  rw [hpc]
  intro x hx
  cases dest with
  | slot y => exact href
  | queue | join t | park | root => cases hx

end Switch

/-! ### The callbacks -/

section Callback

omit [DecidableEq M] [DecidableEq X] [DecidableEq Q] in
/-- A context that suits the current task still does when others move. -/
theorem fits_update (hf : Fits place w c) (hd : place d = some z) (hz : z.isCur = false)
    (o : Option (Spot W T X Q)) : Fits (Function.update place d o) w c := by
  rcases hf with ⟨e, he, hs⟩
  refine ⟨e, stays he hd ?_ o, hs⟩
  rintro rfl
  cases hz

omit [DecidableEq W] [DecidableEq T] [DecidableEq X] [DecidableEq Q] in
theorem spot_own {v : W} (hv : (dest.spot loc w : Spot W T X Q).own = some v) : v = w := by
  cases dest with
  | root => exact (Option.some.inj hv).symm
  | queue | slot x | join t | park => cases hv

omit [DecidableEq W] [DecidableEq T] [DecidableEq X] [DecidableEq Q] in
theorem spot_ne_prev : (dest.spot loc w : Spot W T X Q) ≠ .prev w := by
  cases dest <;> nofun

omit [DecidableEq W] [DecidableEq T] [DecidableEq X] [DecidableEq Q] in
theorem spot_ne_hand : (dest.spot loc w : Spot W T X Q) ≠ .hand w := by
  cases dest <;> nofun

omit [DecidableEq W] [DecidableEq T] [DecidableEq X] [DecidableEq Q] in
theorem spot_slot (hs : (dest.spot loc w : Spot W T X Q) = .slot x) : dest.target = some x := by
  cases dest with
  | slot y =>
      cases hs
      rfl
  | queue | join t | park | root => cases hs

omit [DecidableEq W] [DecidableEq T] [DecidableEq A] [DecidableEq X] [DecidableEq Q] in
/-- Where a ULT goes when it suspends. -/
theorem allowed_spot (hroot : dest ≠ .root) :
    Allowed (.ult t : Desc W T A) (dest.spot loc w : Spot W T X Q) := by
  cases dest with
  | root => exact absurd rfl hroot
  | queue | slot x | join t | park => trivial

omit [DecidableEq W] [DecidableEq T] [DecidableEq A] [DecidableEq X] [DecidableEq M]
  [DecidableEq Q] in
theorem tail_still (k : Tail X M) (hs : Still place w) (hf : Fits place w onto) :
    Doing place w (k.pc w onto : Pc W T A X M) := by
  cases k with
  | nothing | link x | release m => exact ⟨hs, rfl, hf⟩
  | call => exact ⟨hs, rfl, hf⟩

omit [DecidableEq W] [DecidableEq T] [DecidableEq A] [DecidableEq X] [DecidableEq M] in
theorem tail_target (k : Tail X M) : (k.pc w onto : Pc W T A X M).target = none := by
  cases k <;> rfl

omit [DecidableEq W] [DecidableEq T] [DecidableEq A] [DecidableEq X] [DecidableEq M] in
theorem tail_tentative (k : Tail X M) : (k.pc w onto : Pc W T A X M).tentative = false := by
  cases k <;> rfl

omit [DecidableEq M] in
theorem views_finish (s : State W T A X M Q) (z z' : Spot W T X Q) (dest : Dest T X) (w : W)
    (p : Pc W T A X M) :
    (((s.move u z z').claim dest none).goto w p).Views (moved s.tokens u z z') s.live s.ctx
      (Function.update s.pc w p) s.handed (s.claim dest none).claimed := by
  cases dest <;> exact ⟨rfl, rfl, rfl, rfl, rfl, rfl⟩

omit [DecidableEq M] in
theorem views_joined (s : State W T A X M Q) (z z' : Spot W T X Q) (dest : Dest T X) (w : W)
    (p : Pc W T A X M) :
    ((((s.move u z z').claim dest none).joined dest).goto w p).Views (moved s.tokens u z z')
      s.live s.ctx (Function.update s.pc w p) s.handed (s.claim dest none).claimed := by
  cases dest <;> exact ⟨rfl, rfl, rfl, rfl, rfl, rfl⟩

omit [DecidableEq M] in
/-- The callback's store finds its cell empty: a slot is claimed, `root_cont` is
    where only the worker's own loop can be. -/
theorem Inv.publish {s' : State W T A X M Q} (h : Inv s place)
    (hs : s'.Views (moved s.tokens u (.prev w) (dest.spot loc w)) s.live s.ctx
      (Function.update s.pc w p) s.handed (s.claim dest none).claimed)
    (hu : place u = some (.prev w)) (htarget : (s.pc w).target = dest.target)
    (hp : p.target = none) (htent : p.tentative = (s.pc w).tentative)
    (hwho : (u = .root w ∧ dest = .root) ∨ ((∃ t, u = .ult t) ∧ dest ≠ .root))
    (hjoin : ∀ t, dest = .join t → Empty place (.join t))
    (hdo : Doing (Function.update place u (some (dest.spot loc w))) w p) :
    Inv s' (Function.update place u (some (dest.spot loc w))) := by
  -- Queues take any number of tokens; the other spots are cells.
  have hfree : (dest.spot loc w : Spot W T X Q).cell = true →
      Empty place (dest.spot loc w : Spot W T X Q) := by
    intro hcell
    cases dest with
    | queue | park => cases hcell
    | join t => exact hjoin t rfl
    | slot x => exact h.slots.reserved x w ((h.slots.claims x w).mpr htarget)
    | root =>
        rcases hwho with ⟨rfl, -⟩ | ⟨-, hne⟩
        · intro e he
          have hroot := h.spots.rootCont he
          rw [hroot, hu] at he
          cases he
        · exact absurd rfl hne
  have hallow : Allowed u (dest.spot loc w : Spot W T X Q) := by
    rcases hwho with ⟨rfl, rfl⟩ | ⟨⟨t, rfl⟩, hne⟩
    · exact rfl
    · exact allowed_spot hne
  refine h.shift hs hu spot_ne_prev hfree hallow (fun v hv => (Option.some.inj hv).symm)
    (fun v hv => spot_own hv) rfl hdo htent ?_
  refine (h.slots.finish htarget hp).put fun x hx => ?_
  exact claim_none (spot_slot hx)

theorem inv_publish (h : Inv s place) (hg : guard loc node s (.publish w u dest k wk onto)) :
    ∃ place', Inv (next loc s (.publish w u dest k wk onto)) place' := by
  obtain ⟨hpc, -⟩ := hg
  have hdo := h.doing w
  rw [hpc] at hdo
  obtain ⟨hhand, hu, hcall, rfl, hfit⟩ := hdo
  -- The root goes to its own place, and a thread to the queue or a slot.
  have hwho : (u = .root wk ∧ dest = .root) ∨ ((∃ t, u = .ult t) ∧ dest ≠ .root) := by
    rcases hcall with ⟨hr, hop⟩ | ⟨ht, hq | ⟨x, hx⟩⟩
    · cases hop
      exact .inl ⟨hr, rfl⟩
    · exact .inr ⟨ht, hq ▸ nofun⟩
    · exact .inr ⟨ht, hx ▸ nofun⟩
  have hjoin : ∀ t, dest = .join t → Empty place (.join t) := by
    rintro t rfl
    rcases hcall with ⟨-, hop⟩ | ⟨-, hq | ⟨x, hx⟩⟩
    · cases hop
    · cases hq
    · cases hx
  refine ⟨Function.update place u (some (dest.spot loc wk)),
    h.publish (views_finish s _ _ dest wk _) hu (by rw [hpc]; rfl) (tail_target k)
      ((tail_tentative k).trans (by rw [hpc]; rfl)) hwho hjoin ?_⟩
  refine tail_still k ⟨empty_update hhand spot_ne_hand, ?_⟩ (fits_update hfit hu rfl _)
  exact empty_left (fun e he => h.spots.single _ e u rfl he hu)
    fun he => spot_ne_prev (Option.some.inj he)

theorem inv_register (h : Inv s place) (hg : guard loc node s (.register w u n dest c onto)) :
    ∃ place', Inv (next loc s (.register w u n dest c onto)) place' := by
  obtain ⟨hpc, -, hacc⟩ := hg
  have hdo := h.doing w
  rw [hpc] at hdo
  obtain ⟨hhand, hu, hn, hult, hroot, hc, hsuit⟩ := hdo
  have hjoin : ∀ t, dest = .join t → Empty place (.join t) := by
    rintro t rfl
    exact h.spots.nil_iff.mp hacc.2
  have hstill : Still (Function.update place u (some (dest.spot loc w))) w :=
    ⟨empty_update hhand spot_ne_hand, empty_left (fun e he => h.spots.single _ e u rfl he hu)
      fun he => spot_ne_prev (Option.some.inj he)⟩
  have hn' := stays hn hu nofun (some (dest.spot loc w))
  refine ⟨Function.update place u (some (dest.spot loc w)),
    h.publish (views_joined s _ _ dest w _) hu (by rw [hpc]; rfl) ?_ ?_
      (.inr ⟨hult, hroot⟩) hjoin ?_⟩
  -- Whether user code is called or not, the destination's context is kept.
  · split <;> rfl
  · rw [hpc]
    split <;> rfl
  · split
    · exact ⟨hstill, rfl, hn', hult, hc, hsuit⟩
    · exact ⟨hstill, rfl, hn', hult, hc, hsuit⟩

theorem inv_answer (h : Inv s place) (hg : guard loc node s (.answer w u n dest wk c onto)) :
    Inv (next loc s (.answer w u n dest wk c onto)) place := by
  have hpc : s.pc w = .run (.asked u n dest wk c onto) := hg
  have hdo := h.doing w
  rw [hpc] at hdo
  exact h.goto (p := .published u n dest wk c onto) ⟨rfl, rfl, rfl, rfl, rfl, rfl⟩ hdo
    (by rw [hpc]; rfl) (h.slots.keep (by rw [hpc]; rfl))

omit [DecidableEq W] [DecidableEq T] [DecidableEq A] [DecidableEq X] [DecidableEq M]
  [DecidableEq Q] in
/-- A context that suits the current task is where the task goes on. -/
theorem resumed_doing (hs : Still place w) (hf : Fits place w onto) :
    Doing place w (.run onto.resumed : Pc W T A X M) := by
  obtain ⟨d, hd, hplain, hwho⟩ := hf
  cases onto with
  | entry | body => exact ⟨hs, trivial⟩
  | unlocking m back =>
      have hback : back = .body := hplain
      subst hback
      refine ⟨hs, rfl, trivial, fun _ => ?_⟩
      rcases hwho with hbody | ⟨t, rfl⟩
      · cases hbody
      · exact ⟨t, hd⟩
  | callback m wk onto => exact hplain.elim
  | called wk onto => exact hplain.elim
  | asked u n d wk c onto => exact hplain.elim

omit [DecidableEq W] [DecidableEq T] [DecidableEq A] [DecidableEq X] [DecidableEq M]
  [DecidableEq Q] in
/-- And nothing asks there. -/
theorem resumed_tentative (hf : Fits place w onto) :
    (.run onto.resumed : Pc W T A X M).tentative = false := by
  obtain ⟨d, -, hplain, -⟩ := hf
  cases onto with
  | entry => rfl
  | body | unlocking m back | callback m wk onto | called wk onto | asked u n d wk c onto =>
      exact Ctx.tentative_of_outside hplain.outside

omit [DecidableEq T] [DecidableEq A] [DecidableEq X] [DecidableEq M] [DecidableEq Q] in
/-- The code is handed the worker it runs on. -/
theorem Inv.handed_self (h : Inv s place) (w : W) : Function.update s.handed w w = s.handed := by
  have hsame := Function.update_eq_self w s.handed
  rwa [h.handed w] at hsame

theorem inv_land (h : Inv s place) (hg : guard loc node s (.land w wk onto)) :
    Inv (next loc s (.land w wk onto)) place := by
  have hpc : s.pc w = .landing wk onto := hg
  have hdo := h.doing w
  rw [hpc] at hdo
  obtain ⟨hstill, rfl, hfit⟩ := hdo
  exact h.goto ⟨rfl, rfl, rfl, rfl, h.handed_self wk, rfl⟩ (resumed_doing hstill hfit)
    (by rw [hpc]; exact resumed_tentative hfit) (h.slots.keep (by rw [hpc]; rfl))

theorem inv_returned (h : Inv s place) (hg : guard loc node s (.returned w wk onto)) :
    Inv (next loc s (.returned w wk onto)) place := by
  have hpc : s.pc w = .run (.called wk onto) := hg
  have hdo := h.doing w
  rw [hpc] at hdo
  exact h.goto (p := .landing wk onto) ⟨rfl, rfl, rfl, rfl, rfl, rfl⟩ hdo
    (by rw [hpc]; rfl) (h.slots.keep (by rw [hpc]; rfl))

/-- The switch is final once the context of the task that goes on is cleared. -/
theorem inv_commit {e : Desc W T A} (h : Inv s place)
    (hg : guard loc node s (.commit w e u n dest wk c onto)) :
    Inv (next loc s (.commit w e u n dest wk c onto)) place := by
  obtain ⟨hpc, he⟩ := hg
  have hdo := h.doing w
  rw [hpc] at hdo
  obtain ⟨hstill, rfl, hn, -, -, hsuit⟩ := hdo
  -- The task that is current is the one that goes on.
  have hen : e = n := h.cur_eq (h.spots.at_of_eq he) hn
  subst hen
  have hfit : Fits place wk onto := ⟨e, hn, hsuit⟩
  refine h.step (w := wk) ⟨rfl, rfl, rfl, rfl, h.handed_self wk, rfl⟩ h.spots
    (fun v _ e z _ => Iff.rfl) (resumed_doing hstill hfit)
    ⟨e, hn, iff_of_true (Function.update_self ..) (resumed_tentative hfit)⟩ ?_ ?_ ?_
    (h.slots.keep (by rw [hpc]; rfl))
  · intro v e' hv he'
    refine Function.update_of_ne ?_ _ _
    rintro rfl
    rw [hn] at he'
    cases he'
    exact hv rfl
  · intro e' z he' hz hp
    have hne : e' ≠ e := by
      rintro rfl
      rw [hn] at he'
      cases he'
      cases hz
    change Function.update s.ctx e none e' ≠ none
    rw [Function.update_of_ne hne]
    exact h.saved e' z he' hz hp
  · intro e' c' hc
    change Function.update s.ctx e none e' = _ at hc
    by_cases hee : e' = e
    · rw [hee, Function.update_self] at hc
      cases hc
    · rw [Function.update_of_ne hee] at hc
      exact h.suits e' c' hc

theorem inv_link (h : Inv s place) (hg : guard loc node s (.link w x wk onto)) :
    Inv (next loc s (.link w x wk onto)) place := by
  have hpc : s.pc w = .linking x wk onto := hg
  have hdo := h.doing w
  rw [hpc] at hdo
  exact h.goto (p := .landing wk onto) ⟨rfl, rfl, rfl, rfl, rfl, rfl⟩ hdo (by rw [hpc]; rfl)
    (h.slots.keep (by rw [hpc]; rfl))

theorem inv_release (h : Inv s place) (hg : guard loc node s (.release w m wk onto)) :
    Inv (next loc s (.release w m wk onto)) place := by
  have hpc : s.pc w = .releasing m wk onto := hg
  have hdo := h.doing w
  rw [hpc] at hdo
  unfold next
  dsimp only
  split
  · exact h.goto (p := .landing wk onto) ⟨rfl, rfl, rfl, rfl, rfl, rfl⟩ hdo (by rw [hpc]; rfl)
      (h.slots.keep (by rw [hpc]; rfl))
  · exact h.goto (p := .run (.callback m wk onto)) ⟨rfl, rfl, rfl, rfl, rfl, rfl⟩ hdo
      (by rw [hpc]; rfl) (h.slots.keep (by rw [hpc]; rfl))

omit [DecidableEq W] [DecidableEq T] [DecidableEq A] [DecidableEq X] [DecidableEq M]
  [DecidableEq Q] in
/-- The drop of a guard is through: code goes on after it, a callback lands. -/
theorem through_doing (hdo : Doing place w (.run c : Pc W T A X M)) :
    Doing place w (c.through : Pc W T A X M) := by
  cases c with
  | callback m wk onto => exact hdo
  | unlocking m back => exact ⟨hdo.1, hdo.2.2.1⟩
  | entry | body | called wk onto | asked u n d wk c onto => exact hdo

omit [DecidableEq W] [DecidableEq T] [DecidableEq A] [DecidableEq X] [DecidableEq M] in
theorem through_target : (c.through : Pc W T A X M).target = none := by
  cases c <;> rfl

omit [DecidableEq W] [DecidableEq T] [DecidableEq A] [DecidableEq X] [DecidableEq M] in
theorem through_tentative : (c.through : Pc W T A X M).tentative = c.tentative := by
  cases c <;> rfl

omit [DecidableEq M] in
/-- A worker that goes on while a token leaves a slot or a join word for a
    queue. -/
theorem Inv.requeue {s' : State W T A X M Q} (h : Inv s place)
    (hs : s'.Views (moved s.tokens d z (.queue q)) s.live s.ctx (Function.update s.pc w p)
      s.handed s.claimed)
    (hd : place d = some z) (hz : z.own = none) (hzq : Spot.queue q ≠ z) (hdo : Doing place w p)
    (htent : p.tentative = (s.pc w).tentative) (htarget : p.target = (s.pc w).target) :
    Inv s' (Function.update place d (some (.queue q))) := by
  have hzc : z.isCur = false := by
    cases z with
    | cur v => cases hz
    | _ => rfl
  -- A place that is somebody's own is this worker's.
  have hx : ∀ v, z.own = some v → v = w := by
    intro v hv
    rw [hz] at hv
    cases hv
  refine h.shift hs hd hzq (by rintro ⟨⟩)
    (allowed_queue (not_root (h.spots.allowed d z hd) hz) q) hx (by rintro _ ⟨⟩) hzc
    (hdo.congr (agree_update (fun z' hz' => ?_) (fun z' hz' => ?_))) htent
    ((h.slots.keep htarget).put (by simp))
  · rw [hd] at hz'
    cases hz'
    rw [hz]
    rintro ⟨⟩
  · cases hz'
    rintro ⟨⟩

theorem inv_handOver {rest : List X} (h : Inv s place)
    (hg : guard loc node s (.handOver w m c x y rest n)) :
    ∃ place', Inv (next loc s (.handOver w m c x y rest n)) place' := by
  obtain ⟨hpc, -, -, -, hy⟩ := hg
  have hdo := h.doing w
  rw [hpc] at hdo
  exact ⟨_, h.requeue ⟨rfl, rfl, rfl, rfl, rfl, rfl⟩ (h.spots.at_of_eq hy) rfl nofun
    (through_doing hdo) (through_tentative.trans (by rw [hpc]; rfl))
    (through_target.trans (by rw [hpc]; rfl))⟩

omit [DecidableEq T] [DecidableEq A] [DecidableEq X] [DecidableEq M] [DecidableEq Q] in
/-- The callback of an exit that finds nobody to resume goes on to land. -/
theorem Inv.exited {s' : State W T A X M Q} {ex : Exit} (h : Inv s place)
    (hpc : s.pc w = .exiting ex t wk onto)
    (hs : s'.Views s.tokens s.live s.ctx (Function.update s.pc w (.landing wk onto)) s.handed
      s.claimed) : Inv s' place := by
  have hdo := h.doing w
  rw [hpc] at hdo
  exact h.goto hs hdo (by rw [hpc]; rfl) (h.slots.keep (by rw [hpc]; rfl))

/-- The swap finds a joiner to resume, user code to call, or nothing. -/
theorem inv_settle (h : Inv s place) (hg : guard loc node s (.settle w t wk onto)) :
    ∃ place', Inv (next loc s (.settle w t wk onto)) place' := by
  have hpc : s.pc w = .exiting .settle t wk onto := hg
  have hdo := h.doing w
  rw [hpc] at hdo
  unfold next
  dsimp only
  split
  next =>
    cases s.joinState t with
    | running | finished => exact ⟨_, h.exited hpc ⟨rfl, rfl, rfl, rfl, rfl, rfl⟩⟩
    | waker | detached =>
        exact ⟨_, h.goto (p := .run (.called wk onto)) ⟨rfl, rfl, rfl, rfl, rfl, rfl⟩ hdo
          (by rw [hpc]; rfl) (h.slots.keep (by rw [hpc]; rfl))⟩
  next j rest hj =>
    have hjt : place j = some (.join t) := h.spots.at_iff.mp (by rw [hj]; exact List.mem_cons_self)
    exact ⟨_, h.requeue (p := .landing wk onto) ⟨rfl, rfl, rfl, rfl, rfl, rfl⟩ hjt rfl nofun hdo
      (by rw [hpc]; rfl) (by rw [hpc]; rfl)⟩

/-- What was popped goes back to where it came from. -/
theorem inv_putBack (h : Inv s place) (hg : guard loc node s (.putBack w u n wk c)) :
    ∃ place', Inv (next loc s (.putBack w u n wk c)) place' := by
  obtain ⟨hpc, -⟩ := hg
  have hdo := h.doing w
  rw [hpc] at hdo
  obtain ⟨hprev, rfl, hu, hn, -, ⟨t, rfl⟩, hc⟩ := hdo
  let z' : Spot W T X Q := if n.isRoot then .rootCont wk else .queue (loc wk)
  have hne : z' ≠ .hand wk := by
    simp only [z']
    split <;> nofun
  have hnep : z' ≠ .prev wk := by
    simp only [z']
    split <;> nofun
  -- Where it is put is empty before.
  have hfree : z'.cell = true → Empty place z' := by
    simp only [z']
    split
    next hr =>
      intro _ e he
      -- It can only be the root, and that is in hand.
      have hroot := h.spots.rootCont he
      cases n with
      | root v =>
          have hvw : v = wk := h.spots.own_root hn rfl
          rw [hroot, ← hvw, hn] at he
          cases he
      | ult t' | async a => cases hr
    next => nofun
  have hallow : Allowed n z' := by
    have ha := h.spots.allowed n _ hn
    cases n with
    | root v => exact ha
    | ult t' | async a => trivial
  have hown : ∀ v, z'.own = some v → v = wk := by
    simp only [z']
    split
    · exact fun v hv => (Option.some.inj hv).symm
    · nofun
  have hslot : ∀ x, z' ≠ .slot x := by
    intro x
    simp only [z']
    split <;> nofun
  -- The worker goes on with its continuation, and stands where it stood.
  have hdo' : Doing (Function.update place n (some z')) wk (.run c : Pc W T A X M) := by
    have hcur := stays hu hn nofun (some z')
    have hstill : Still (Function.update place n (some z')) wk :=
      ⟨empty_left (fun e he => h.spots.single _ e n rfl he hn)
        fun he => hne (Option.some.inj he), empty_update hprev hnep⟩
    refine ⟨hstill, ?_⟩
    obtain ⟨hplain, hne⟩ := hc
    cases c with
    | entry => exact absurd rfl hne
    | body => trivial
    | unlocking m back =>
        have hback : back = .body := hplain
        subst hback
        exact ⟨rfl, trivial, fun _ => ⟨t, hcur⟩⟩
    | callback m wk onto => exact hplain.elim
    | called wk onto => exact hplain.elim
    | asked u n d wk c onto => exact hplain.elim
  have htent : (.run c : Pc W T A X M).tentative = (s.pc wk).tentative := by
    rw [hpc]
    exact Ctx.tentative_of_outside hc.1.outside
  exact ⟨_, h.shift ⟨rfl, rfl, rfl, rfl, h.handed_self wk, rfl⟩ hn hne hfree hallow
    (fun v hv => (Option.some.inj hv).symm) hown rfl hdo' htent
    ((h.slots.keep (by rw [hpc]; rfl)).put fun x hx => absurd hx (hslot x))⟩

end Callback

/-! ### Wakes, branches and async tasks -/

section Others

theorem inv_notify (h : Inv s place) (hg : guard loc node s (.notify w x n)) :
    ∃ place', Inv (next loc s (.notify w x n)) place' := by
  obtain ⟨-, -, hn⟩ := hg
  have hnx := h.spots.at_of_eq hn
  have hallow : Allowed n (.queue (loc w) : Spot W T X Q) :=
    allowed_queue (not_root (h.spots.allowed n _ hnx) rfl) (loc w)
  exact ⟨_, h.drift ⟨rfl, rfl, rfl, rfl, rfl, rfl⟩ hnx nofun nofun hallow rfl rfl nofun⟩

theorem inv_wake (h : Inv s place) (hg : guard loc node s (.wake d q)) :
    ∃ place', Inv (next loc s (.wake d q)) place' := by
  have hd := h.spots.at_iff.mp hg
  have hallow : Allowed d (.queue q : Spot W T X Q) :=
    allowed_queue (not_root (h.spots.allowed d _ hd) rfl) q
  exact ⟨_, h.drift ⟨rfl, rfl, rfl, rfl, rfl, rfl⟩ hd nofun nofun hallow rfl rfl nofun⟩

/-- A branch is suspended before it has begun. -/
theorem inv_build (h : Inv s place) (hg : guard loc node s (.build w u t' c)) :
    ∃ place', Inv (next loc s (.build w u t' c)) place' := by
  obtain ⟨-, hlive⟩ := hg
  have hself : Function.update s.ctx (.ult t') (some .entry) (.ult t') = some .entry :=
    Function.update_self ..
  refine ⟨_, h.add (d := .ult t') (q := loc w) ⟨rfl, rfl, rfl, rfl, rfl, rfl⟩ hlive rfl
    (fun e he => Function.update_of_ne he _ _) ?_ ?_⟩
  · intro _ hnil
    have hnil' := hself.symm.trans hnil
    cases hnil'
  · intro c hc
    have hc' := hself.symm.trans hc
    cases hc'
    exact ⟨trivial, .inr ⟨t', rfl⟩⟩

theorem inv_tryPop (h : Inv s place) (hg : guard loc node s (.tryPop w u t' d c)) :
    ∃ place', Inv (next loc s (.tryPop w u t' d c)) place' := by
  obtain ⟨⟨hpc, -⟩, hd⟩ := hg
  have hdq := h.spots.at_iff.mp hd
  obtain ⟨hhand, hprev⟩ := h.still hpc
  refine ⟨_, h.grab ⟨rfl, rfl, rfl, rfl, rfl, rfl⟩ hdq nofun rfl hhand ?_
    (by rw [hpc]; rfl) (h.slots.keep (run_target hpc).symm)⟩
  exact ⟨empty_update hprev nofun, Function.update_self ..,
    not_root (h.spots.allowed d _ hdq) rfl, (h.stands hpc).mono fun _ he => stays he hdq nofun _⟩

omit [DecidableEq M] [DecidableEq X] [DecidableEq Q] in
/-- What has been popped leaves the hand of a worker that goes on. -/
theorem judged_doing (h : Inv s place) (hpc : s.pc w = .judging t d c)
    {o : Option (Spot W T X Q)} (ho : o ≠ some (.hand w)) (ho' : o ≠ some (.prev w)) :
    Doing (Function.update place d o) w (.run c : Pc W T A X M) := by
  have hdo := h.doing w
  rw [hpc] at hdo
  obtain ⟨hprev, hd, -, hstands⟩ := hdo
  refine ⟨⟨empty_left (fun e' he' => h.spots.single _ e' d rfl he' hd) ho, ?_⟩,
    hstands.mono fun _ he => stays he hd nofun o⟩
  exact empty_left (fun e' he' => absurd he' (hprev e')) ho'

theorem inv_discard (h : Inv s place) (hg : guard loc node s (.discard w t' c)) :
    ∃ place', Inv (next loc s (.discard w t' c)) place' := by
  obtain ⟨hpc, hd, -⟩ := hg
  have hd := h.spots.at_of_eq hd
  rcases h.current w with ⟨e, he⟩
  refine ⟨Function.update place (.ult t') none, h.step (w := w) (p := .run c)
    ⟨rfl, rfl, rfl, rfl, rfl, rfl⟩ (h.spots.take hd rfl) (fun v hv => ?_)
    (judged_doing h hpc nofun nofun) ⟨e, stays he hd nofun _, ?_⟩ (fun v e _ _ => rfl) ?_
    h.suits (h.slots.gone.keep (by rw [hpc]; rfl))⟩
  · refine agree_update (fun z hz hown => ?_) nofun
    rw [hd] at hz
    cases hz
    exact hv (Option.some.inj hown).symm
  · -- Whoever runs on the worker is not the thread that is given up.
    have hrun := h.running w e he
    rw [hpc] at hrun
    exact hrun
  · intro e' z he' hz hp
    have hne : e' ≠ .ult t' := by
      rintro rfl
      rw [Function.update_self] at he'
      cases he'
    rw [Function.update_of_ne hne] at he'
    exact h.saved e' z he' hz hp

theorem inv_rePush (h : Inv s place) (hg : guard loc node s (.rePush w t' d c)) :
    ∃ place', Inv (next loc s (.rePush w t' d c)) place' := by
  obtain ⟨hpc, hd, -⟩ := hg
  have hdh := h.spots.at_of_eq hd
  have hdo := h.doing w
  rw [hpc] at hdo
  exact ⟨_, h.shift ⟨rfl, rfl, rfl, rfl, rfl, rfl⟩ hdh nofun nofun (allowed_queue hdo.2.2.1 _)
    (fun v hv => (Option.some.inj hv).symm) nofun rfl (judged_doing h hpc nofun nofun)
    (by rw [hpc]; rfl) ((h.slots.keep (by rw [hpc]; rfl)).put nofun)⟩

theorem inv_spawnAsync (h : Inv s place) (hg : guard loc node s (.spawnAsync w a)) :
    ∃ place', Inv (next loc s (.spawnAsync w a)) place' :=
  ⟨_, h.add (d := .async a) (q := loc w) ⟨rfl, rfl, rfl, rfl, rfl, rfl⟩ hg.2 rfl
    (fun _ _ => rfl) nofun (fun c hc => h.suits _ c hc)⟩

theorem inv_poll (h : Inv s place) (hg : guard loc node s (.poll w q a)) :
    ∃ place', Inv (next loc s (.poll w q a)) place' :=
  ⟨_, h.drift ⟨rfl, rfl, rfl, rfl, rfl, rfl⟩ (h.spots.at_iff.mp hg.2) nofun nofun trivial rfl rfl
    nofun⟩

theorem inv_pollPending (h : Inv s place) (hg : guard loc node s (.pollPending a)) :
    ∃ place', Inv (next loc s (.pollPending a)) place' :=
  ⟨_, h.drift ⟨rfl, rfl, rfl, rfl, rfl, rfl⟩ (h.spots.at_iff.mp hg) nofun nofun trivial rfl rfl
    nofun⟩

theorem inv_wakeAsync (h : Inv s place) (hg : guard loc node s (.wakeAsync a z q)) :
    ∃ place', Inv (next loc s (.wakeAsync a z q)) place' := by
  obtain ⟨hz, ha⟩ := hg
  have hown : z.own = none ∧ Spot.queue q ≠ z := by
    rcases hz with rfl | rfl <;> exact ⟨rfl, nofun⟩
  exact ⟨_, h.drift ⟨rfl, rfl, rfl, rfl, rfl, rfl⟩ (h.spots.at_iff.mp ha) hown.2 nofun trivial
    hown.1 rfl nofun⟩

theorem inv_pollReady (h : Inv s place) (hg : guard loc node s (.pollReady a)) :
    ∃ place', Inv (next loc s (.pollReady a)) place' := by
  have ha : place (.async a) = some .polling := h.spots.at_iff.mp hg
  have hagree : ∀ v, Agree place (Function.update place (.async a) none) v := by
    refine fun v => agree_update (fun z hz hown => ?_) nofun
    rw [ha] at hz
    cases hz
    cases hown
  -- Tokens stay, but for the task that has ended.
  have hold : ∀ e z, Function.update place (.async a) none e = some z → place e = some z := by
    intro e z he
    have hne : e ≠ .async a := by
      rintro rfl
      rw [Function.update_self] at he
      cases he
    rwa [Function.update_of_ne hne] at he
  refine ⟨Function.update place (.async a) none, ?_⟩
  constructor
  · exact h.spots.take ha rfl
  · exact fun v => (h.doing v).congr (hagree v)
  · intro v
    rcases h.current v with ⟨e, he⟩
    exact ⟨e, (hagree v).at rfl he⟩
  · exact fun v e he => h.running v e (hold e _ he)
  · exact fun e z he => h.saved e z (hold e z he)
  · exact h.suits
  · exact h.slots.gone
  · exact h.handed

end Others

/-! ### Every step -/

/-- The invariant is kept by every action that starts no switch in a callback. -/
theorem inv_next {α : Action W T A X M Q} (h : Inv s place) (hg : guard loc node s α)
    (ho : α.outside) : ∃ place', Inv (next loc s α) place' := by
  -- One lemma for each action, in the order of the source.
  cases α with
  | runOn w v q d => exact inv_runOn h hg
  | suspendToSched w u d k c => exact ⟨place, inv_suspendToSched h hg ho⟩
  | condSuspendToSched w u d c => exact ⟨place, inv_condSuspendToSched h hg ho⟩
  | exitToSched w t => exact ⟨place, h.exits hg.1 .settle⟩
  | exitAbandoned w t => exact ⟨place, h.exits hg.1 .abandoned⟩
  | exitToCont w t n => exact inv_exitToCont h hg
  | enter w u x n c => exact inv_enter h hg ho
  | swap w u x y n c => exact inv_swap h hg ho
  | spawn w u t' c => exact inv_spawn h hg ho
  | lock w u m x c => exact ⟨place, inv_lock h⟩
  | lockWait w u m x c => exact ⟨place, inv_lockWait h hg ho⟩
  | dropGuard w u m c => exact ⟨place, inv_dropGuard h hg⟩
  | spinYield w u m c => exact ⟨place, inv_spinYield h hg ho⟩
  | switchNext w u op c q d => exact inv_switchNext h hg
  | takeRootCont w u op c n => exact inv_takeRootCont h hg
  | pushBack w u op c a n => exact inv_pushBack h hg
  | suspendShim w u n d k c onto => exact inv_suspendShim h hg
  | condSuspendShim w u n d c onto => exact inv_condSuspendShim h hg
  | exitShim w t n e c onto => exact inv_exitShim h hg
  | publish w u d k wk onto => exact inv_publish h hg
  | link w x wk onto => exact ⟨place, inv_link h hg⟩
  | release w m wk onto => exact ⟨place, inv_release h hg⟩
  | handOver w m c x y rest n => exact inv_handOver h hg
  | returned w wk onto => exact ⟨place, inv_returned h hg⟩
  | land w wk onto => exact ⟨place, inv_land h hg⟩
  | register w u n d c onto => exact inv_register h hg
  | answer w u n d wk c onto => exact ⟨place, inv_answer h hg⟩
  | commit w e u n d wk c onto => exact ⟨place, inv_commit h hg⟩
  | retract w e u n x wk c onto => exact inv_retract h hg
  | cancel w u n d c onto => exact inv_cancel h hg
  | putBack w u n wk c => exact inv_putBack h hg
  | commitFinished w t wk onto => exact ⟨place, h.exited hg ⟨rfl, rfl, rfl, rfl, rfl, rfl⟩⟩
  | freeTask w t wk onto => exact ⟨place, h.exited hg ⟨rfl, rfl, rfl, rfl, rfl, rfl⟩⟩
  | settle w t wk onto => exact inv_settle h hg
  | abandon t => exact ⟨place, h.same ⟨rfl, rfl, rfl, rfl, rfl, rfl⟩⟩
  | registerWaker t => exact ⟨place, h.same ⟨rfl, rfl, rfl, rfl, rfl, rfl⟩⟩
  | notify w x n => exact inv_notify h hg
  | wake d q => exact inv_wake h hg
  | build w u t' c => exact inv_build h hg
  | tryPop w u t' d c => exact inv_tryPop h hg
  | discard w t' c => exact inv_discard h hg
  | rePush w t' d c => exact inv_rePush h hg
  | spawnAsync w a => exact inv_spawnAsync h hg
  | poll w q a => exact inv_poll h hg
  | pollReady a => exact inv_pollReady h hg
  | pollPending a => exact inv_pollPending h hg
  | wakeAsync a x q => exact inv_wakeAsync h hg

end Worker

end Cmpth

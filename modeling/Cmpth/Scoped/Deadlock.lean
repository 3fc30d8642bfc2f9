import Mathlib.Data.Set.Finite.Lattice
import Mathlib.Data.Set.Finite.Lemmas
import Cmpth.Scoped.Order

/-!
# Helping Does Not Deadlock

A worker whose branch was stolen helps with other work, so the branch it waits
for may be buried under tasks it is helping with, and the thief of that branch
may itself be waiting.

The call a worker waits for is older than the call that the branch's thief
waits for, since the thief's is above the branch on its stack and the branch
was started after its own call began. So among finitely many workers no chain
of waits goes on for ever. Where nobody is waiting for a latch, the root worker
can go on.

## Main definitions

* `Fruitless`: A step of a round that looks for work and finds none.
* `Moves`: Some worker has a step that gets on.
* `Stuck`: A worker that can only look for work, or wait for a thread.

## Theorems

* `Moves.step`: A step that is not fruitless gets on.
* `go_ctl`: What a worker does next.
* `Owned.fresh`: Addresses do not run out.
* `Ordered.moves_run`, `Ordered.moves_ret`, `Ordered.moves_unwind`, `Ordered.moves_step`: A worker
  has a step that gets on, or is stuck, by what it does at the top of its stack.
* `Ordered.turns`: Every stage of a loop goes on to another.
* `Ordered.moves`: A worker has a step that gets on, or is stuck.
* `Ordered.deque_nil_of_base`: A worker at its loop has an empty queue.
* `Ordered.older`: A worker that waits for a latch waits for a younger call.
* `Ordered.not_waiting`: Among finitely many workers, not everybody waits.
* `Ordered.progress`: Not every worker is stuck.
* `Started.finite`: The workers of a pool are finitely many.
* `helping_progress`: Until the root worker ends, some worker gets on.
* `helping_progress_waitsForThief`: A caller that waits for its thief.
-/

namespace Cmpth

namespace Scoped

variable {W A V : Type*}

/-- The step belongs to a round of looking for work that finds none: the
    worker's own queue is empty, and its loop has no reason yet to end. -/
def Fruitless (s : State W A V) : Action W A → Prop
  | .step w =>
      (s.worker w).ctl = .step ∧ (s.worker w).deque = [] ∧
        match (s.worker w).stack with
        | .seek .idle _ :: _ => s.finished = false
        | .seek (.help t _ _) _ :: _ => (s.task t).latch = false
        | _ => False
  | _ => False

section

/-- When the call a worker waits in was made. -/
def State.waitBorn (s : State W A V) (c : Clock A) (w : W) : ℕ :=
  match (s.worker w).stack with
  | .seek (.help t _ _) _ :: _ => c.born t
  | _ => 0

variable [DecidableEq W] [DecidableEq A] {w₀ : W} {out : Option V} {s : State W A V}
  {l : Log A V} {c : Clock A}

/-- Some worker has a step that gets on: it is enabled, it changes the state,
    and it is not a failure to find work. -/
def Moves (s : State W A V) : Prop :=
  ∃ a, enabled s a = true ∧ ¬ Fruitless s a ∧ next s a ≠ s

/-- The worker can only look for work, or waits for a thread that has not
    ended. -/
def Stuck (w₀ : W) (s : State W A V) (w : W) : Prop :=
  (s.worker w).ctl = .step ∧
    match (s.worker w).stack with
    | .seek (.help t _ _) _ :: _ => (s.task t).latch = false
    | .seek .idle _ :: _ => s.finished = false ∧ w ≠ w₀
    | .join (b :: _) _ :: _ =>
        w = w₀ ∧ b ≠ w₀ ∧ (s.worker b).ctl ≠ .exited ∧ (s.worker b).ctl ≠ .dead
    | _ => False

theorem Moves.step (w : W) (hrun : s.aborted = false) (hcan : canStep s w = true)
    (hfruit : ¬ Fruitless s (.step w))
    (hne : ((next s (.step w)).worker w).ctl ≠ (s.worker w).ctl ∨
      ((next s (.step w)).worker w).stack ≠ (s.worker w).stack) : Moves s := by
  refine ⟨.step w, by simp [enabled, hrun, hcan], hfruit, ?_⟩
  intro heq
  rw [heq] at hne
  simp at hne

omit [DecidableEq A] in
@[simp] theorem go_ctl (s : State W A V) (w : W) (st : List (Frame W A V)) (c : Control V) :
    ((s.go w st c).worker w).ctl = c := by
  simp only [State.go, Function.update_self]

omit [DecidableEq W] [DecidableEq A] in
/-- Addresses do not run out. -/
theorem Owned.fresh [Finite W] [Infinite A] (h : Owned s) : ∃ t, (s.task t).live = false := by
  have hfin : {t | (s.task t).live = true}.Finite := by
    refine (Set.finite_iUnion fun w => List.finite_toSet (s.worker w).owns).subset ?_
    intro t ht
    exact Set.mem_iUnion.mpr (h t ht)
  obtain ⟨t, ht⟩ := hfin.exists_notMem
  exact ⟨t, Bool.eq_false_iff.mpr ht⟩

theorem Ordered.moves_run [Finite W] [Infinite A] (h : Ordered w₀ out s l c) {w : W}
    {p : Prog V} (hctl : (s.worker w).ctl = .run p) : Moves s := by
  have hrun := h.faithful.running
  cases p with
  | parallelCall a b k =>
      obtain ⟨t, ht⟩ := h.owned.fresh
      refine ⟨.call w t, by simp [enabled, hrun, canCall, hctl, ht], id, ?_⟩
      intro heq
      have hstack : ((next s (.call w t)).worker w).stack = .call t k :: (s.worker w).stack := by
        simp [next, call, hctl]
      rw [heq] at hstack
      exact absurd hstack.symm (List.cons_ne_self _ _)
  | ret v | panic =>
      refine Moves.step w hrun (by simp [canStep, hctl]) (by simp [Fruitless, hctl]) (Or.inl ?_)
      simp [next, Scoped.step, hctl, start]
  | catchUnwind p k =>
      refine Moves.step w hrun (by simp [canStep, hctl]) (by simp [Fruitless, hctl]) (Or.inr ?_)
      simp [next, Scoped.step, hctl, start]

theorem Ordered.moves_ret (h : Ordered w₀ out s l c) {w : W} {v : V}
    (hctl : (s.worker w).ctl = .ret v) : Moves s := by
  have hfits := (h.faithful.ok w).fits
  refine Moves.step w h.faithful.running (by simp [canStep, hctl]) (by simp [Fruitless, hctl])
    (Or.inl ?_)
  cases hst : (s.worker w).stack with
  | nil =>
      simp only [Worker.Fits, hctl, hst] at hfits
      exact hfits.elim
  | cons f st =>
      simp only [Worker.Fits, hctl, hst] at hfits
      cases f with
      | call t k | exec t | run hs | init hs | inline t ra k | catchUnwind k =>
          simp [next, Scoped.step, hctl, hst, ret]
      | _ => exact hfits.elim

theorem Ordered.moves_unwind (h : Ordered w₀ out s l c) {w : W}
    (hctl : (s.worker w).ctl = .unwind) : Moves s := by
  have hfits := (h.faithful.ok w).fits
  refine Moves.step w h.faithful.running (by simp [canStep, hctl]) (by simp [Fruitless, hctl])
    (Or.inl ?_)
  cases hst : (s.worker w).stack with
  | nil =>
      simp only [Worker.Fits, hctl, hst] at hfits
      exact hfits.elim
  | cons f st =>
      have hnone := h.faithful.owns_of_unwind w hctl hst
      simp only [Worker.Fits, hctl, hst] at hfits
      cases f with
      | run hs | init hs | catchUnwind k => simp [next, Scoped.step, hctl, hst, unwind]
      | call t k | inline t ra k => cases hnone.1
      | exec t => cases hnone.2
      | _ => exact hfits.elim

/-- Every stage of a loop goes on to another. -/
theorem Ordered.turns (h : Ordered w₀ out s l c) {w : W} {loop : Loop W A V} {r : Seek}
    {st : List (Frame W A V)} (hctl : (s.worker w).ctl = .step)
    (hst : (s.worker w).stack = .seek loop r :: st) :
    ((next s (.step w)).worker w).ctl ≠ (s.worker w).ctl ∨
      ((next s (.step w)).worker w).stack ≠ (s.worker w).stack := by
  have hd := (h.faithful.inv.ok w).deque_nil hst
  simp only [next, Scoped.step, hctl, hst]
  cases r with
  | check =>
      cases loop with
      | idle | help t ra k =>
          simp only [advance]
          split
          all_goals simp
      | drain | initDrain hs o => simp [advance]
  | pop => simp [advance, hd]
  | steal =>
      cases loop with
      | idle | help | initDrain => simp [advance]
      | drain => simp [advance]

theorem Ordered.moves_step (h : Ordered w₀ out s l c) {w : W}
    (hctl : (s.worker w).ctl = .step) : Moves s ∨ Stuck w₀ s w := by
  have hrun := h.faithful.running
  have hok := h.faithful.ok w
  have hfits := hok.fits
  -- The frame on top says what the next operation is.
  cases hst : (s.worker w).stack with
  | nil =>
      simp only [Worker.Fits, hctl, hst] at hfits
      exact hfits.elim
  | cons f st =>
  simp only [Worker.Fits, hctl, hst] at hfits
  cases f with
  | pop t ra k =>
      refine Or.inl (Moves.step w hrun (by simp [canStep, hctl, hst])
        (by simp [Fruitless, hctl, hst]) (Or.inr ?_))
      simp only [next, Scoped.step, hctl, hst, advance]
      cases (s.worker w).deque with
      | nil => simp
      | cons x d =>
          simp only
          split
          all_goals simp
  | inline t ra k | exec t =>
      have hfresh : (s.worker w).fresh = some t := by simp only [Worker.fresh, hctl, hst]
      have hready := (hok.fresh t hfresh).1
      refine Or.inl (Moves.step w hrun (by simp [canStep, hctl, hst])
        (by simp [Fruitless, hctl, hst]) (Or.inl ?_))
      simp [next, Scoped.step, hctl, hst, advance, hready]
  | take t ra k =>
      obtain ⟨-, rb, hres, -⟩ := h.faithful.taken hctl hst
      refine Or.inl (Moves.step w hrun (by simp [canStep, hctl, hst])
        (by simp [Fruitless, hctl, hst]) (Or.inl ?_))
      simp [next, Scoped.step, hctl, hst, advance, hres]
  | publish t r | setLatch t | finish hs o =>
      refine Or.inl (Moves.step w hrun (by simp [canStep, hctl, hst])
        (by simp [Fruitless, hctl, hst]) (Or.inr ?_))
      simp [next, Scoped.step, hctl, hst, advance]
  -- A round over the other workers gets on only if it finds something.
  | seek loop r =>
      have hcan : canStep s w = true := by simp [canStep, hctl, hst]
      have hturn := h.turns hctl hst
      cases loop with
      | idle =>
          by_cases hfin : s.finished = true
          · exact Or.inl (Moves.step w hrun hcan (by simp [Fruitless, hst, hfin]) hturn)
          · rw [Bool.not_eq_true] at hfin
            exact Or.inr ⟨hctl, by rw [hst]; exact ⟨hfin, hfits⟩⟩
      | help t ra k =>
          by_cases hla : (s.task t).latch = true
          · exact Or.inl (Moves.step w hrun hcan (by simp [Fruitless, hst, hla]) hturn)
          · rw [Bool.not_eq_true] at hla
            exact Or.inr ⟨hctl, by rw [hst]; exact hla⟩
      | drain | initDrain =>
          exact Or.inl (Moves.step w hrun hcan (by simp [Fruitless, hst]) hturn)
  -- The root worker waits for threads that may still run.
  | join hs o =>
      have hfruit : ¬ Fruitless s (.step w) := by simp [Fruitless, hst]
      cases hs with
      | nil =>
          refine Or.inl (Moves.step w hrun (by simp [canStep, hctl, hst]) hfruit (Or.inr ?_))
          simp [next, Scoped.step, hctl, hst, advance]
      | cons b hs =>
          obtain ⟨-, hw, hnot⟩ := hfits
          rw [List.mem_cons, not_or] at hnot
          by_cases hended : (s.worker b).ctl = .exited ∨ (s.worker b).ctl = .dead
          · refine Or.inl (Moves.step w hrun ?_ hfruit (Or.inr ?_))
            · rcases hended with hb | hb
              all_goals simp [canStep, hctl, hst, hb]
            · rcases hended with hb | hb
              all_goals simp [next, Scoped.step, hctl, hst, advance, hb]
          · rw [not_or] at hended
            exact Or.inr ⟨hctl, by rw [hst]; exact ⟨hw, Ne.symm hnot.1, hended⟩⟩
  | _ => exact hfits.elim

/-- A worker whose thread has not ended has a step that gets on, or is stuck. -/
theorem Ordered.moves [Finite W] [Infinite A] (h : Ordered w₀ out s l c) (w : W)
    (hx : (s.worker w).ctl ≠ .exited) (hd : (s.worker w).ctl ≠ .dead) :
    Moves s ∨ Stuck w₀ s w := by
  cases hctl : (s.worker w).ctl with
  | run p => exact Or.inl (h.moves_run hctl)
  | ret v => exact Or.inl (h.moves_ret hctl)
  | unwind => exact Or.inl (h.moves_unwind hctl)
  | step => exact h.moves_step hctl
  | exited => exact absurd hctl hx
  | dead => exact absurd hctl hd

/-- The worker waits for the latch of `t`. -/
def Waiting (s : State W A V) (w : W) (t : A) : Prop :=
  (s.worker w).ctl = .step ∧
    (∃ ra k r st, (s.worker w).stack = .seek (.help t ra k) r :: st) ∧
    (s.task t).latch = false

omit [DecidableEq W] [DecidableEq A] in
theorem Ordered.deque_nil_of_base (h : Ordered w₀ out s l c) {w : W} {f : Frame W A V}
    {st : List (Frame W A V)} (hst : (s.worker w).stack = f :: st) (hf : pending (f :: st) = []) :
    (s.worker w).deque = [] := by
  have hfifo := (h.faithful.inv.ok w).fifo
  rw [hst, hf] at hfifo
  exact List.prefix_nil.mp hfifo

omit [DecidableEq A] [DecidableEq W] in
/-- Where nobody gets on, the thief of the branch that a worker waits for waits
    for a call that began later. -/
theorem Ordered.older (h : Ordered w₀ out s l c) {w : W} {t : A} (hw : Waiting s w t)
    (hall : ∀ w', (s.worker w').ctl = .exited ∨ (s.worker w').ctl = .dead ∨ Stuck w₀ s w') :
    ∃ w' t', Waiting s w' t' ∧ c.born t < c.born t' := by
  obtain ⟨hctl, ⟨ra, k, r, st, hst⟩, hla⟩ := hw
  have hawaits : t ∈ (s.worker w).awaits :=
    List.mem_filterMap.mpr ⟨_, hst ▸ List.mem_cons_self, rfl⟩
  rcases h.waits.waited w t hawaits with ⟨w', hholds⟩ | hset
  · -- Somebody has the task, and not in its queue.
    have hfits := (h.faithful.ok w').fits
    have hempty : (s.worker w').stack ≠ [] := by
      intro hnil
      have hfifo := (h.faithful.inv.ok w').fifo
      rw [hnil] at hfifo
      rw [Worker.holds, hnil, List.prefix_nil.mp hfifo] at hholds
      exact absurd hholds List.not_mem_nil
    have hstuck : Stuck w₀ s w' := by
      rcases hall w' with hx | hd | hstuck
      · simp only [Worker.Fits, hx] at hfits
        exact absurd hfits hempty
      · simp only [Worker.Fits, hd] at hfits
        exact absurd hfits.2 hempty
      · exact hstuck
    have hbased := (h.waits.ok w').based
    -- Below the outermost loop there is no execution.
    have hbase : ∀ f st', (s.worker w').stack = f :: st' → f.base = true →
        pending (f :: st') = [] → f.holds = none → False := by
      intro f st' hst' hf hp hn
      have hd := h.deque_nil_of_base hst' hp
      rw [hst'] at hbased
      have hnil := hbased.1 hf
      subst hnil
      rw [Worker.holds, hd, hst', List.filterMap_cons, hn] at hholds
      exact absurd hholds List.not_mem_nil
    obtain ⟨hctl', hstuck⟩ := hstuck
    split at hstuck
    · -- The thief waits on top of the execution.
      rename_i t' ra' k' r' st' hst'
      refine ⟨w', t', ⟨hctl', ⟨ra', k', r', st', hst'⟩, hstuck⟩, ?_⟩
      have hd := h.deque_nil_of_base hst' rfl
      rw [Worker.holds, hd, hst', List.nil_append] at hholds
      rcases List.mem_filterMap.mp hholds with ⟨f, hf, hft⟩
      rcases List.mem_cons.mp hf with rfl | hmem
      · cases hft
      · have hexec : f.executes = some t := by
          cases f with
          | pushBack t₁ ra₁ k₁ x =>
              exact absurd (hst' ▸ List.mem_cons_of_mem _ hmem)
                ((h.faithful.inv.ok w').keeps t₁ ra₁ k₁ x)
          | exec t₁ | publish t₁ v | setLatch t₁ => exact hft
          | _ => cases hft
        have hstart : c.start t ∈ st'.filterMap (Frame.time c) := by
          refine List.mem_filterMap.mpr ⟨f, hmem, ?_⟩
          simp only [Frame.time, hexec]
        have hage := h.aged.stack w'
        rw [hst', List.filterMap_cons] at hage
        have hbelow : c.start t < c.born t' := (List.pairwise_cons.mp hage).1 _ hstart
        refine lt_trans (h.aged.exec w' t ?_) hbelow
        rw [hst']
        exact List.mem_filterMap.mpr ⟨f, List.mem_cons_of_mem _ hmem, hexec⟩
    · rename_i r' st' hst'
      exact (hbase _ _ hst' rfl rfl rfl).elim
    · rename_i b hs o st' hst'
      exact (hbase _ _ hst' rfl rfl rfl).elim
    · exact hstuck.elim
  · rw [hla] at hset
    cases hset

omit [DecidableEq A] [DecidableEq W] in
/-- Among finitely many workers, not everybody waits. -/
theorem Ordered.not_waiting [Finite W] (h : Ordered w₀ out s l c)
    (hall : ∀ w', (s.worker w').ctl = .exited ∨ (s.worker w').ctl = .dead ∨ Stuck w₀ s w')
    (w : W) (t : A) : ¬ Waiting s w t := by
  intro hw
  have hrank : ∀ w t, Waiting s w t → s.waitBorn c w = c.born t := by
    rintro w t ⟨-, ⟨ra, k, r, st, hst⟩, -⟩
    simp only [State.waitBorn, hst]
  -- A waiting worker whose call is the youngest of all.
  obtain ⟨m, ⟨tm, hm⟩, hmax⟩ := Set.exists_max_image {w | ∃ t, Waiting s w t} (s.waitBorn c)
    (Set.toFinite _) ⟨w, t, hw⟩
  obtain ⟨w', t', hw', hlt⟩ := h.older hm hall
  have hle := hmax w' ⟨t', hw'⟩
  rw [hrank w' t' hw', hrank m tm hm] at hle
  exact absurd hlt (Nat.not_lt.mpr hle)

/-- While the root worker's thread has not ended, some worker gets on. -/
theorem Ordered.progress [Finite W] [Infinite A] (h : Ordered w₀ out s l c)
    (hx : (s.worker w₀).ctl ≠ .exited) (hd : (s.worker w₀).ctl ≠ .dead) : Moves s := by
  by_contra hno
  have hstuck : ∀ w, (s.worker w).ctl ≠ .exited → (s.worker w).ctl ≠ .dead → Stuck w₀ s w :=
    fun w hx hd => (h.moves w hx hd).resolve_left hno
  have hall : ∀ w, (s.worker w).ctl = .exited ∨ (s.worker w).ctl = .dead ∨ Stuck w₀ s w := by
    intro w
    by_cases hx : (s.worker w).ctl = .exited
    · exact Or.inl hx
    · by_cases hd : (s.worker w).ctl = .dead
      · exact Or.inr (Or.inl hd)
      · exact Or.inr (Or.inr (hstuck w hx hd))
  obtain ⟨hctl, hroot⟩ := hstuck w₀ hx hd
  split at hroot
  · rename_i t ra k r st hst
    exact h.not_waiting hall w₀ t ⟨hctl, ⟨ra, k, r, st, hst⟩, hroot⟩
  · exact hroot.2 rfl
  · -- The root worker joins a thread, so the pool is finished.
    rename_i b hs o st hst
    have hfin := h.joined w₀ (b :: hs) o (hst ▸ List.mem_cons_self)
    obtain ⟨-, hb, hbx, hbd⟩ := hroot
    obtain ⟨hbctl, hbstuck⟩ := hstuck b hbx hbd
    split at hbstuck
    · rename_i t ra k r st' hst'
      exact h.not_waiting hall b t ⟨hbctl, ⟨ra, k, r, st', hst'⟩, hbstuck⟩
    · rw [hfin] at hbstuck
      cases hbstuck.1
    · exact hb hbstuck.1
    · exact hbstuck
  · exact hroot

omit [DecidableEq A] in
/-- The workers of a pool are finitely many. -/
theorem Started.finite {handles : List W} {p : Prog V} (hs : Started s w₀ handles p) :
    Finite W := by
  refine Set.finite_univ_iff.mp ((List.finite_toSet (w₀ :: handles)).subset ?_)
  intro w _
  by_cases hw : w = w₀
  · exact hw ▸ List.mem_cons_self
  · exact List.mem_cons_of_mem _ ((hs.others.2 w).mpr hw)

/-- For every program none of whose branches panics, any number of workers and
    any schedule: as long as the root worker's thread has not ended, some worker
    has an enabled step that changes the state and is not a failure to find
    work. -/
theorem helping_progress [Infinite A] (p : Prog V) (hp : p.eval = some out)
    (handles : List W) (hs : Started s w₀ handles p) (as : List (Action W A))
    (hl : system.Legal s as) (hx : ((system.run s as).worker w₀).ctl ≠ .exited)
    (hd : ((system.run s as).worker w₀).ctl ≠ .dead) : Moves (system.run s as) := by
  have hfinite := hs.finite
  have hrun : ∃ l c, Ordered w₀ out (system.run s as) l c := by
    have hinit : ∃ l c, Ordered w₀ out s l c := ⟨_, _, ordered_started hs hp⟩
    clear hx hd hs
    induction as generalizing s with
    | nil => exact hinit
    | cons a as ih =>
        obtain ⟨l, c, h⟩ := hinit
        obtain ⟨c', h'⟩ := ordered_next h a hl.1
        exact ih hl.2 ⟨_, c', h'⟩
  obtain ⟨l, c, h⟩ := hrun
  exact h.progress hx hd

/-- Worker 0 waits for the branch that worker 1 has stolen and not begun. -/
def waitsForThief : List (Action Bool Nat) :=
  [.call false 0, .step true, .step true, .steal true false, .step false, .step false,
    .step false, .step false]

theorem helping_progress_waitsForThief :
    system.Legal (twoWorkers (.parallelCall (.ret 1) (.ret 2) fun a b => .ret (a + b)))
        waitsForThief ∧
      Moves (system.run (twoWorkers (.parallelCall (.ret 1) (.ret 2) fun a b => .ret (a + b)))
        waitsForThief) :=
  ⟨by decide, helping_progress _ rfl [true] (started_twoWorkers _) waitsForThief (by decide)
    (by nofun) (by nofun)⟩

end

end Scoped

end Cmpth

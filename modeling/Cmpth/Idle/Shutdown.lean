import Cmpth.Idle.Baton

/-!
# Idle Shutdown

`PoolCore::finish` stores `finished`, bumps the epoch and wakes everybody, once. A worker that
has checked `finished` just before and has not yet fallen asleep is not among those that are
woken; what keeps it from falling asleep afterwards is the bump, which it sees in the comparison
of the kernel or under the lock of the condition variable.

That a worker then comes to the end of its loop needs no fairness of the scheduler other than
that the worker is run: every step of its own, apart from the visits of a search, takes it to a
place of a smaller rank, and no step of anybody else takes it back. How many queues a search
visits is up to the steal policy.

The comparison of `FutexWait` is of 32 bits. For `CondvarWait` the comparison is made together
with the check of `finished`, and the epoch may come round as it likes.

## Main definitions

* `Pc.rank`: How far a worker is from the end of its loop, once `finished` is set.
* `Action.own`, `Action.advances`: The steps of a worker; those that take it nearer.
* `CanLeave`: The worker can end its loop without anybody's help.
* `TurnsInTime`: The epoch does not come round on a `FutexWait`.
* `ClosingInv`: The invariant.

## Theorems

* `exited_of_rank`, `rank_start`, `rank_wake`, `rank_parkNoWork`, `rank_searchNoWork`,
  `rank_workFound`: The rank of each place.
* `rank_go`: Once `finished` is set, every step of a worker takes it nearer to the end of its loop.
* `inFutex_wake`, `inFutex_go`, `inFutex_step`: A `CondvarWait` checks under its lock.
* `rank_step`: A step of a search that is no visit ends it, and a visit may end it by finding a
  task.
* `wake_worker_cases`, `rank_wakeWorker`: A wake takes a worker nearer, or leaves it alone.
* `rank_next`: No step takes a worker back, and its own take it nearer.
* `CanLeave.step`: Who can leave after a step of its own can leave before it.
* `exists_canWake`: Somebody can be woken, or there is nobody to wake.
* `early_work`: A worker that steps after `finished` was set is not past the last check of it,
  unless it was about to compare and the epoch looked the same.
* `canLeave_visit`: A search visits the queue: it finds a task, or it has the queue behind it.
* `canLeave_of_early`: A worker that is not past the last check of `finished` can end its loop: by
  induction on the rank, where a search looks at the worker's own queue and at the external one.
* `exact_of_inTime`, `locked_next`: While the epoch does not come round, the compare is exact.
* `closingInv_init`, `closingInv_next`, `closing_next`: The invariant, and that a shutdown stays
  done.
* `canLeave_of_done`: After a shutdown, a worker can end its loop wherever it is.
* `shutdown_reaches_all`: After `finish` nobody sleeps, nobody falls asleep, and every worker comes
  to its finished check.
* `asleep_after_finish`: With `FutexWait` an epoch that comes round puts a worker to sleep after
  `finish`.
* `shutdown_reaches_asleep`: A worker that sleeps when the pool is finished is woken, and two steps
  later its loop has ended.
-/

namespace Cmpth

namespace Idle

variable {W P : Type*}

/-- How far a worker is from the end of its loop, once `finished` is set. -/
def Pc.rank : Pc W → Nat
  | .exited => 0
  | .head => 1
  | .running => 2
  | .returned | .registering | .waking .notify => 3
  | .waking .pass => 4
  | .waking .bump | .waitLock _ => 5
  | .baton | .blocked _ => 6
  | .leaving _ | .waitCompare _ => 7
  | .found | .waitFinished _ => 8
  | .waitLoad _ => 9
  | .parkNow => 10
  | .overCap _ => 11
  | .trying _ _ => 12
  | .noWork _ => 13
  | .searching _ _ => 14

/-- In a wait that compares the epoch outside the lock. -/
def Pc.inFutex : Pc W → Bool
  | .waitLoad _ | .waitFinished _ | .waitCompare _ => true
  | _ => false

/-- Not a visit of a search, and not a task taken by the one that runs. -/
def Step.advances : Step W → Bool
  | .go _ _ | .giveUp => true
  | .visit _ _ | .help _ => false

/-- A step of the worker. -/
def Action.own [DecidableEq W] (w : W) : Action W P → Bool
  | .work x _ | .notify x _ => x = w
  | _ => false

/-- A step that takes the worker nearer to the end of its loop. -/
def Action.advances [DecidableEq W] (w : W) : Action W P → Bool
  | .work x st => x = w && st.advances
  | .notify x _ => x = w
  | _ => false

/-- On a `FutexWait` the epoch does not come round while a ticket is out. -/
def TurnsInTime (c : Config) (s : State W P) : Prop :=
  c.wait = .futex → NoWrap s

section

variable {c : Config} {v : View} {wk : Worker W} {spin timed : Bool}

theorem exited_of_rank {pc : Pc W} (h : pc.rank = 0) : pc = .exited := by
  cases pc
  case waking x => cases x <;> cases h
  all_goals first | rfl | cases h

theorem rank_start (x : ParkWait) (timed : Bool) : (x.start timed : Pc W).rank ≤ 9 := by
  cases x
  · exact le_rfl
  · exact Nat.le_add_left 5 4

theorem rank_wake (c : Config) (wk : Worker W) : (wk.wake c).pc.rank ≤ wk.pc.rank := by
  by_cases hb : wk.pc.isBlocked = true
  · cases hpc : wk.pc <;> rw [hpc] at hb <;> try cases hb
    simp only [Worker.wake, hpc, Worker.moveTo]
    cases c.wait <;> cases ‹Bool› <;> simp [ParkWait.resume, Pc.rank]
  · rw [wake_of_awake (by simpa using hb)]

theorem rank_parkNoWork (c : Config) (wk : Worker W) (timed : Bool) :
    (parkNoWork c wk timed).worker.pc.rank ≤ 9 := by
  unfold parkNoWork
  split
  · exact rank_start _ _
  · split <;> simp [Pc.rank]

theorem rank_searchNoWork (c : Config) (v : View) (wk : Worker W) (retry spin timed : Bool) :
    (searchNoWork c v wk retry spin timed).worker.pc.rank ≤ 12 := by
  have hpark := rank_parkNoWork c wk timed
  unfold searchNoWork
  repeat' split
  all_goals first | omega | simp [Pc.rank, Worker.moveTo, Worker.startParking]

theorem rank_workFound (c : Config) (v : View) (wk : Worker W) :
    (workFound c v wk).worker.pc.rank = 7 := by
  unfold workFound
  repeat' split
  all_goals rfl

/-- Once `finished` is set, every step of a worker takes it nearer to the end of its loop. -/
theorem rank_go (hf : v.finished = true) (hg : wk.pc.goes = true) :
    (wk.go c v spin timed).worker.pc.rank < wk.pc.rank := by
  cases hpc : wk.pc <;> rw [hpc] at hg <;> simp only [Worker.go, hpc]
  case searching | exited => cases hg
  case found => exact (rank_workFound c v wk).trans_lt (by simp [Pc.rank])
  case waking x =>
    cases x with
    | bump =>
        simp only [Worker.moveTo]
        cases c.wait <;> simp [ParkWait.afterBump, Pc.rank]
    | pass => exact Nat.lt_succ_self 3
    | notify => cases hg
  case noWork retry =>
    have hpark := rank_parkNoWork c wk timed
    have hsearch := rank_searchNoWork c v wk retry spin timed
    split
    · split
      · simp [Pc.rank, Worker.moveTo]
      · exact lt_of_le_of_lt hpark (by simp [Pc.rank])
    · exact lt_of_le_of_lt hsearch (by simp [Pc.rank])
  case parkNow => exact lt_of_le_of_lt (rank_parkNoWork c wk timed) (by simp [Pc.rank])
  case blocked timed' =>
    simp only [Worker.moveTo]
    cases c.wait <;> cases timed' <;> simp [ParkWait.resume, Pc.rank]
  case leaving last => cases last <;> simp [Worker.unregister, Pc.rank]
  -- The two checks of `finished` that are left.
  case waitFinished => simp [hf, Worker.moveTo, Pc.rank]
  case waitLock => simp [hf, Worker.moveTo, Pc.rank]
  case head => simp [hf, Worker.moveTo, Pc.rank]
  all_goals
    try split
    all_goals simp [Worker.moveTo, Worker.unregister, Worker.startParking, Pc.rank]

/-- A `CondvarWait` checks under its lock. -/
theorem inFutex_go (hc : c.wait = .condvar) (h : wk.pc.inFutex = false) :
    (wk.go c v spin timed).worker.pc.inFutex = false := by
  -- Looking for work is no wait, and a `CondvarWait` does not begin with the futex.
  have hahead : ∀ {pc : Pc W}, pc.ahead → pc.inFutex = false := by
    intro pc ha
    have hlook := ha.2 none
    cases pc <;> first | rfl | cases hlook
  have hstart : (c.wait.start timed : Pc W).inFutex = false := by
    rw [hc]
    rfl
  -- The wait begins where the round ends, or after the worker has been told to park.
  cases hpc : wk.pc
  case noWork retry =>
    rcases noWork_cases c v spin timed hpc with ha | ⟨_, _, hgo⟩
    · exact hahead ha
    · rw [hgo]
      exact hstart
  case parkNow =>
    simp only [Worker.go, hpc]
    rcases parkNoWork_cases c wk timed with ha | ⟨_, hgo⟩
    · exact hahead ha
    · rw [hgo]
      exact hstart
  case found =>
    simp only [Worker.go, hpc, workFound]
    split
    · rfl
    · split <;> rfl
  case waking x => cases x <;> simp [Worker.go, hpc, Worker.moveTo, Pc.inFutex, hc,
      ParkWait.afterBump]
  case blocked timed' =>
    simp only [Worker.go, hpc, Worker.moveTo, hc]
    cases timed' <;> rfl
  case leaving last => cases last <;> simp [Worker.go, hpc, Worker.unregister, Pc.inFutex]
  case waitLoad | waitFinished | waitCompare =>
    rw [hpc] at h
    cases h
  all_goals
    simp only [Worker.go, hpc, Worker.moveTo, Worker.unregister, Worker.startParking]
    first | rfl | (split <;> rfl)

theorem inFutex_wake (hc : c.wait = .condvar) (h : wk.pc.inFutex = false) :
    (wk.wake c).pc.inFutex = false := by
  by_cases hb : wk.pc.isBlocked = true
  · cases hpc : wk.pc <;> rw [hpc] at hb <;> try cases hb
    simp only [Worker.wake, hpc, Worker.moveTo, hc]
    cases ‹Bool› <;> rfl
  · rwa [wake_of_awake (by simpa using hb)]

end

section

variable [DecidableEq W] {c : Config} {v : View} {wk : Worker W}

/-- A step of a search that is no visit ends it, and a visit may end it by finding a task. -/
theorem rank_step {w : W} {queue : Queue W → Nat} {st : Step W} (hf : v.finished = true)
    (hr : wk.ready w queue st = true) :
    (wk.step c v st).worker.pc.rank + st.advances.toNat ≤ wk.pc.rank := by
  cases st with
  | go spin timed => exact rank_go hf hr
  | help q => exact le_rfl
  | giveUp =>
      cases hpc : wk.pc <;> simp only [Worker.ready, Worker.mayGiveUp, hpc] at hr <;>
        try cases hr
      simp [Worker.step, hpc, Worker.moveTo, Pc.rank, Step.advances]
  | visit q x =>
      cases hpc : wk.pc <;> simp only [Worker.ready, hpc] at hr <;> try cases hr
      cases x <;> simp [Worker.step, hpc, Worker.moveTo, Pc.rank, Step.advances]

theorem inFutex_step {w : W} {queue : Queue W → Nat} {st : Step W} (hc : c.wait = .condvar)
    (hr : wk.ready w queue st = true) (h : wk.pc.inFutex = false) :
    (wk.step c v st).worker.pc.inFutex = false := by
  cases st with
  | go spin timed => exact inFutex_go hc h
  | help q => exact h
  | giveUp =>
      cases hpc : wk.pc <;> simp only [Worker.ready, Worker.mayGiveUp, hpc] at hr <;>
        try cases hr
      simp [Worker.step, hpc, Worker.moveTo, Pc.inFutex]
  | visit q x =>
      cases hpc : wk.pc <;> simp only [Worker.ready, hpc] at hr <;> try cases hr
      cases x <;> simp [Worker.step, hpc, Worker.moveTo, Pc.inFutex]

end

section

variable [DecidableEq W] [DecidableEq P] {c : Config} {s : State W P}

omit [DecidableEq P] in
theorem wake_worker_cases (s : State W P) (target : Option W) (w : W) :
    (s.wake c target).worker w = s.worker w ∨
      (s.wake c target).worker w = (s.worker w).wake c := by
  cases target with
  | none => exact .inl rfl
  | some t =>
      by_cases hw : w = t
      · subst hw
        exact .inr (Function.update_self ..)
      · exact .inl (Function.update_of_ne hw ..)

omit [DecidableEq P] in
theorem rank_wakeWorker (s : State W P) (target : Option W) (w : W) :
    ((s.wake c target).worker w).pc.rank ≤ (s.worker w).pc.rank := by
  rcases wake_worker_cases (c := c) s target w with h | h <;> rw [h]
  exact rank_wake c _

variable [Fintype W]

/-- Once `finished` is set, no step takes a worker back, and its own take it nearer to the end
    of its loop. -/
theorem rank_next (hf : s.finished = true) {a : Action W P} (hg : guard s a) (w : W) :
    ((next c s a).worker w).pc.rank + (a.advances w).toNat ≤ (s.worker w).pc.rank := by
  -- Only its own steps change the rank of a worker, and a wake that hits it.
  cases a with
  | work x st =>
      by_cases hw : w = x
      · subst hw
        have hself : (next c s (.work w st)).worker w =
            ((s.worker w).step c s.view st).worker := Function.update_self ..
        have hstep := rank_step (c := c) (v := s.view) hf hg
        rw [hself]
        simpa [Action.advances] using hstep
      · have hother : (next c s (.work x st)).worker w = s.worker w :=
          Function.update_of_ne hw ..
        rw [hother]
        simp [Action.advances, Ne.symm hw]
  | notify x target =>
      by_cases hw : w = x
      · subst hw
        have hpc := pc_of_notifies hg.1
        simp [next, Worker.moveTo, Action.advances, hpc, Pc.rank]
      · have hother : (next c s (.notify x target)).worker w = (s.wake c target).worker w :=
          Function.update_of_ne hw ..
        rw [hother]
        simpa [Action.advances, Ne.symm hw] using rank_wakeWorker s target w
  | wakeOne p q target => exact rank_wakeWorker s target w
  | wakeAll => exact rank_wake c _
  | publish | loadSearching | loadSleepers | bump | pass | finish | closeBump | closePass =>
      exact le_rfl

/-- The worker can end its loop without anybody's help. -/
def CanLeave (c : Config) (s : State W P) (w : W) : Prop :=
  ∃ as, (∀ a ∈ as, Action.own w a = true) ∧ (system c).Legal s as ∧
    (((system c).run s as).worker w).pc = .exited

theorem CanLeave.step {w : W} {a : Action W P} (ho : a.own w = true) (hg : guard s a)
    (h : CanLeave c (next c s a) w) : CanLeave c s w := by
  rcases h with ⟨as, hown, hl, hend⟩
  exact ⟨a :: as, List.forall_mem_cons.mpr ⟨ho, hown⟩, ⟨hg, hl⟩, hend⟩

omit [DecidableEq P] [DecidableEq W] in
/-- Somebody can be woken, or there is nobody to wake. -/
theorem exists_canWake (s : State W P) : ∃ target, s.canWake target := by
  by_cases hany : ∃ t, (s.worker t).pc.isBlocked = true
  · rcases hany with ⟨t, ht⟩
    exact ⟨some t, ht⟩
  · exact ⟨none, fun t => by simpa using fun ht => hany ⟨t, ht⟩⟩

/-- A worker that steps after `finished` was set is not past the last check of it, unless it was
    about to compare and the epoch looked the same. -/
theorem early_work (hf : s.finished = true) {w : W} {st : Step W}
    (hg : guard (P := P) s (.work w st))
    (hcompare : ∀ t, (s.worker w).pc = .waitCompare t → (s.worker w).unchanged s.view = false) :
    ((next c s (.work w st)).worker w).pc.late = false := by
  rw [show (next c s (.work w st)).worker w = ((s.worker w).step c s.view st).worker from
    Function.update_self ..]
  by_contra hl
  have hopen : s.view.finished ≠ false := by
    rw [show s.view.finished = s.finished from rfl, hf]
    nofun
  rcases late_step (c := c) (v := s.view) hg (by simpa using hl) with ⟨_, hv⟩ | ⟨⟨t, hpc⟩ | hv, hu⟩
  · exact hopen hv
  · rw [hcompare t hpc] at hu
    cases hu
  · exact hopen hv

/-- A search visits the queue: it finds a task, or it has the queue behind it. -/
theorem canLeave_visit {w : W} {passed : Queue W → Bool} {retry : Bool} (q : Queue W)
    (hpc : (s.worker w).pc = .searching passed retry) (hf : s.finished = true)
    (hfound : ∀ t : State W P, (t.worker w).pc = .found → t.finished = true → CanLeave c t w)
    (hpassed : ∀ t : State W P, (t.worker w).pc = .searching (Function.update passed q true) retry →
      t.finished = true → CanLeave c t w) : CanLeave c s w := by
  by_cases hq : s.queue q = 0
  · refine CanLeave.step (a := .work w (.visit q .empty)) (by simp [Action.own]) ?_ ?_
    · simp [guard, Worker.ready, hpc, hq]
    · exact hpassed _ (by simp [next, State.apply, Worker.step, hpc, Worker.moveTo]) hf
  · refine CanLeave.step (a := .work w (.visit q .take)) (by simp [Action.own]) ?_ ?_
    · simp [guard, Worker.ready, hpc]
      omega
    · exact hfound _ (by simp [next, State.apply, Worker.step, hpc, Worker.moveTo]) hf

/-- A worker that is not past the last check of `finished` can end its loop: by induction on the
    rank, where a search looks at the worker's own queue and at the external one. -/
theorem canLeave_of_early (c : Config) (w : W) :
    ∀ (n : Nat) (s : State W P), (s.worker w).pc.rank ≤ n → s.finished = true →
      (s.worker w).pc.late = false → CanLeave c s w := by
  intro n
  -- Each step of the worker's own lowers the rank, but a search has as many visits as it likes, so
  -- it gives up.
  induction n with
  | zero =>
      intro s hn _ _
      exact ⟨[], nofun, trivial, exited_of_rank (Nat.le_zero.mp hn)⟩
  | succ n ih =>
      intro s hn hf hl
      have hgo : (s.worker w).pc.goes = true → CanLeave c s w := by
        intro hg
        have hguard : guard (P := P) s (.work w (.go false false)) := hg
        have hrank := rank_next (c := c) hf hguard w
        refine CanLeave.step (a := .work w (.go false false)) (by simp [Action.own]) hguard
          (ih _ ?_ hf (early_work hf hguard fun t hpc => ?_))
        · simp only [Action.advances, Step.advances, decide_true, Bool.and_self,
            Bool.toNat_true] at hrank
          omega
        · rw [hpc] at hl
          cases hl
      cases hpc : (s.worker w).pc
      case exited => exact ⟨[], nofun, trivial, hpc⟩
      case waking x =>
        cases x with
        | notify =>
            rcases exists_canWake s with ⟨target, ht⟩
            refine CanLeave.step (a := .notify w target) (by simp [Action.own])
              ⟨by rw [hpc]; rfl, ht⟩ (ih _ ?_ ?_ ?_)
            · rw [hpc] at hn
              simp only [Pc.rank] at hn
              simp [next, Worker.moveTo, Pc.rank]
              omega
            · exact (finished_wake s target).trans hf
            · simp [next, Worker.moveTo, Pc.late]
        | _ => exact hgo (by rw [hpc]; rfl)
      case searching passed retry =>
        rw [hpc] at hn
        simp only [Pc.rank] at hn
        have hfound : ∀ t : State W P, (t.worker w).pc = .found → t.finished = true →
            CanLeave c t w := by
          intro t ht hft
          exact ih t (by rw [ht]; simp only [Pc.rank]; omega) hft (by rw [ht]; rfl)
        refine canLeave_visit (some w) hpc hf hfound fun t ht hft => ?_
        refine canLeave_visit none ht hft hfound fun u hu hfu => ?_
        refine CanLeave.step (a := .work w .giveUp) (by simp [Action.own]) ?_ (ih _ ?_ hfu ?_)
        · simp [guard, Worker.ready, Worker.mayGiveUp, hu]
        · simp [next, State.apply, Worker.step, hu, Worker.moveTo, Pc.rank]
          omega
        · simp [next, State.apply, Worker.step, hu, Worker.moveTo, Pc.late]
      all_goals exact hgo (by rw [hpc]; rfl)

/-- The counters are right, a shutdown is as far as it has come, and with `CondvarWait` nobody
    is in a wait of the other kind. -/
structure ClosingInv (c : Config) (s : State W P) : Prop where
  counts : Counts c s
  shut : Shut s
  locked : c.wait = .condvar → ∀ w, (s.worker w).pc.inFutex = false

omit [DecidableEq W] [DecidableEq P] in
theorem exact_of_inTime (h : ClosingInv c s) (ht : TurnsInTime c s) : Exact s := by
  cases hw : c.wait with
  | futex => exact exact_of_noWrap h.counts (ht hw)
  | condvar =>
      intro w t hpc
      have hnot := h.locked hw w
      rw [hpc] at hnot
      cases hnot

theorem locked_next (hc : c.wait = .condvar) (h : ∀ w, (s.worker w).pc.inFutex = false)
    {a : Action W P} (hg : guard s a) (w : W) :
    ((next c s a).worker w).pc.inFutex = false := by
  -- A wake takes a worker out of the futex, never into it.
  have hwake : ∀ target, ((s.wake c target).worker w).pc.inFutex = false := by
    intro target
    rcases wake_worker_cases (c := c) s target w with hw | hw <;> rw [hw]
    · exact h w
    · exact inFutex_wake hc (h w)
  cases a with
  | work x st =>
      by_cases hw : w = x
      · subst hw
        rw [show (next c s (.work w st)).worker w = ((s.worker w).step c s.view st).worker from
          Function.update_self ..]
        exact inFutex_step hc hg (h w)
      · rw [show (next c s (.work x st)).worker w = s.worker w from Function.update_of_ne hw ..]
        exact h w
  | notify x target =>
      by_cases hw : w = x
      · subst hw
        simp [next, Worker.moveTo, Pc.inFutex]
      · rw [show (next c s (.notify x target)).worker w = (s.wake c target).worker w from
          Function.update_of_ne hw ..]
        exact hwake target
  | wakeOne p q target => exact hwake target
  | wakeAll => exact inFutex_wake hc (h w)
  | publish | loadSearching | loadSleepers | bump | pass | finish | closeBump | closePass =>
      exact h w

theorem closingInv_init (hi : init s) : ClosingInv c s where
  counts := counts_reachable (.init s hi)
  shut := shut_init hi
  locked _ w := by
    rw [hi.1 w]
    rfl

theorem closingInv_next (h : ClosingInv c s) (ht : TurnsInTime c s) {a : Action W P}
    (hg : guard s a) : ClosingInv c (next c s a) where
  counts := counts_step h.counts a hg
  shut := shut_next h.shut h.counts (exact_of_inTime h ht) hg
  locked hc := locked_next hc (h.locked hc) hg

theorem closing_next (hd : s.closing = .done) {a : Action W P} (hg : guard s a) :
    (next c s a).closing = .done := by
  cases a with
  | notify w target | wakeOne p q target =>
      rw [← hd]
      cases target <;> rfl
  | finish | closeBump | closePass =>
      have hcl : s.closing = _ := hg
      rw [hd] at hcl
      cases hcl
  | work | publish | loadSearching | loadSleepers | bump | pass => exact hd
  | wakeAll => rfl

/-- After a shutdown, a worker can end its loop wherever it is. -/
theorem canLeave_of_done (h : ClosingInv c s) (ht : TurnsInTime c s) (hd : s.closing = .done)
    (w : W) : CanLeave c s w := by
  have hf : s.finished = true := h.shut.finished.mpr (by rw [hd]; nofun)
  by_cases hl : (s.worker w).pc.late = true
  · -- Nobody sleeps, so it is about to compare, and the bump shows.
    cases hpc : (s.worker w).pc
    case waitCompare t =>
      have hstale := h.shut.stale (by rw [hd]; nofun) (by rw [hd]; nofun) w t hpc
      have hu : (s.worker w).unchanged s.view = false := by
        by_contra hu
        exact hstale (exact_of_inTime h ht w t hpc (by simpa using hu))
      have hguard : guard (P := P) s (.work w (.go false false)) := by
        simp [guard, Worker.ready, hpc, Pc.goes]
      exact CanLeave.step (a := .work w (.go false false)) (by simp [Action.own]) hguard
        (canLeave_of_early c w _ _ le_rfl hf (early_work hf hguard fun _ _ => hu))
    case blocked t =>
      have hawake := h.shut.awake hd w
      rw [hpc] at hawake
      cases hawake
    all_goals
      rw [hpc] at hl
      cases hl
  · exact canLeave_of_early c w _ s le_rfl hf (by simpa using hl)

end

/-- After `finish`, under either policy and with either wait, nobody sleeps and nobody falls
    asleep; every worker can go on to the end of its loop, and does if it is run: it takes no
    more steps of its own, the visits of its searches apart, than its rank. With `FutexWait` the
    epoch must not come round while a ticket is out. -/
theorem shutdown_reaches_all [DecidableEq W] [DecidableEq P] [Fintype W] (c : Config)
    (s : State W P) (as : List (Action W P))
    (hr : (system c).ReachableIf (fun s _ => TurnsInTime c s) s) (hd : s.closing = .done)
    (hl : (system c).Legal s as) (ht : (system c).Throughout (TurnsInTime c) s as) :
    (system c).Throughout (fun t => ∀ w, (t.worker w).pc.isBlocked = false ∧ CanLeave c t w)
        s as ∧
      ∀ w, as.countP (Action.advances w) + (((system c).run s as).worker w).pc.rank ≤
        (s.worker w).pc.rank := by
  have hinv : ClosingInv c s ∧ s.closing = .done :=
    ⟨hr.induct (fun _ hi => closingInv_init hi) fun _ _ h hg hc => closingInv_next h hc hg, hd⟩
  -- Once the shutdown has been announced it stays so.
  have hstep : ∀ (t : State W P) (a : Action W P), ClosingInv c t ∧ t.closing = .done →
      (system c).guard t a → TurnsInTime c t →
      ClosingInv c ((system c).next t a) ∧ ((system c).next t a).closing = .done :=
    fun t a h hg hc => ⟨closingInv_next h.1 hc hg, closing_next h.2 hg⟩
  refine ⟨System.throughout_of_throughout _ (fun t h hc w => ?_) hstep as s hinv hl ht,
    fun w => ?_⟩
  · exact ⟨h.1.shut.awake h.2 w, canLeave_of_done h.1 hc h.2 w⟩
  · refine System.countP_add_rank_le (system c) (C := fun t _ => TurnsInTime c t)
      (I := fun t => ClosingInv c t ∧ t.closing = .done)
      (r := fun t => (t.worker w).pc.rank) hstep (fun t a h hg => ?_) as s hinv hl
      (System.along_of_throughout _ as s ht)
    refine rank_next (h.1.shut.finished.mpr ?_) hg w
    rw [h.2]
    nofun

/-- The only worker is about to compare when the pool is finished, and the bump of the shutdown
    is the last one of a full turn of the epoch. -/
def finishRun : List (Action Unit Unit) :=
  [.finish, .closeBump, .wakeAll]

/-- The state after `finish`, `n` pushes after the worker has registered. -/
def finishedAfter (n : Nat) : State Unit Unit :=
  (system (searchIdle .futex goCap)).run (comparing n) finishRun

/-- The worker falls asleep in a pool that has been finished. -/
theorem asleep_after_finish :
    (system (searchIdle .futex goCap)).Reachable (finishedAfter (2 ^ 32 - 1)) ∧
      (finishedAfter (2 ^ 32 - 1)).closing = .done ∧
      guard (finishedAfter (2 ^ 32 - 1)) (.work () (.go false false)) ∧
      (((system (searchIdle .futex goCap)).next (finishedAfter (2 ^ 32 - 1))
        (.work () (.go false false))).worker ()).pc.isBlocked = true :=
  ⟨System.reachableIf_run _ _ _ (comparing_reachable _) ⟨rfl, rfl, rfl, trivial⟩
    (System.along_true ..), rfl, rfl, rfl⟩

/-- A worker that sleeps when the pool is finished is woken, and two steps later its loop has
    ended. -/
theorem shutdown_reaches_asleep :
    let as := [Action.work () (.go false false), .work () (.go false false)]
    let s := (system (searchIdle .futex goCap)).run (compared 0) finishRun
    (system (searchIdle .futex goCap)).Throughout
        (fun t => ∀ w, (t.worker w).pc.isBlocked = false ∧ CanLeave (searchIdle .futex goCap) t w)
        s as ∧
      as.countP (Action.advances ()) + (((system (searchIdle .futex goCap)).run s as).worker
        ()).pc.rank ≤ (s.worker ()).pc.rank ∧
      (((system (searchIdle .futex goCap)).run s as).worker ()).pc.rank = 0 := by
  intro as s
  -- The epoch is at most 1, far from coming round.
  have hturns : ∀ {t : State Unit Unit}, t.epoch ≤ 1 → TurnsInTime (searchIdle .futex goCap) t :=
    fun h _ => noWrap_of_epoch (by omega)
  have hr : (system (searchIdle .futex goCap)).ReachableIf
      (fun t _ => TurnsInTime (searchIdle .futex goCap) t) s :=
    System.reachableIf_run _ _ _ (compared_reachable.imp fun _ _ h _ => h)
      ⟨rfl, rfl, rfl, trivial⟩
      ⟨hturns (Nat.zero_le 1), hturns (Nat.zero_le 1), hturns le_rfl, trivial⟩
  have hreaches := shutdown_reaches_all (searchIdle .futex goCap) s as hr rfl
    ⟨rfl, rfl, trivial⟩ ⟨hturns le_rfl, hturns le_rfl, hturns le_rfl⟩
  exact ⟨hreaches.1, hreaches.2 (), rfl⟩

end Idle

end Cmpth

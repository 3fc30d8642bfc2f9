import Cmpth.Idle.Looking

/-!
# Who Answers for a Queue

The argument behind `SearchIdle`, one queue at a time. While the queue holds a
task, somebody answers for it: a worker that will look at it, a worker with a
task that has still to pass the search on, or a producer that has not yet bumped
the epoch. Once somebody has bumped it, the wake that follows may take the
place of all these, because then nobody is through with the queue any more.

Whether a worker that runs a task counts is a parameter. It will search again
when the task is done, so it counts for the question whether everybody sleeps.
It does not count for the question whether somebody keeps looking.

## Main definitions

* `searchIdle`: The policy, with a wait primitive and a cap.
* `Worker.Answers`, `State.Attended`: Somebody answers for the queue.
* `State.Posted`: A bump has been made and the wake is still to come.
* `Cover`: The invariant, for a queue with a task.
* `Relieved`: A worker that does not count as a searcher leaves the queue to
  others.

## Theorems

* `answers_of_counted`: A searcher answers for every queue.
* `go_of_ready`: Outside a search and a task there is only one thing to do.
* `workFound_cases`: `work_found` passes the search on if the worker was the last searcher.
* `answers_step`: How a worker stops to answer for a queue.
* `answers_later`, `answers_of_idle`: Who answers for the queue still does after a bump.
* `not_exited_wake`, `not_exited_step`: Nobody leaves the loop before the pool is shut down.
* `attended_work`: How a queue stops to be attended when a worker moves.
* `posted_work`: A pending wake stays pending while workers move.
* `cover_work`: A worker's step keeps the invariant.
* `not_blocked_of_answers`: Who answers is not asleep.
* `cover_of_attended`: A queue that is attended is covered.
* `cover_of_no_ticket`: Where nobody is registered there is nothing to cover.
* `attended_wake`: Whoever answers is awake and goes on to answer when somebody is woken.
* `attended_set`, `attended_announce`: A producer's step keeps the queue attended, and its
  announcement makes it so.
* `cover_wake`: Whoever is woken looks at the queue, or was through with it and leaves it to those
  who answered for it before.
* `cover_notify`: The end of a worker's own `wake_one`.
* `cover_next`: Every action keeps the invariant.
* `open_of_next`: Once finished the pool stays so.
* `open_next`: A step leaves the pool open unless it is shut down.
-/

namespace Cmpth

namespace Idle

variable {W P : Type*}

/-- `SearchIdle<C, W>`. -/
def searchIdle (wait : ParkWait) (cap : Nat → Nat → Nat → Nat) : Config where
  policy := .search
  wait := wait
  cap := cap

/-- `GoCap`. -/
def goCap (workers parked searching : Nat) : Nat :=
  max ((workers - (parked + searching)) / 2) 1

/-- With a task, and before the point where the search is passed on. -/
def Pc.passes : Pc W → Bool
  | .found | .leaving true | .baton | .waking .bump => true
  | .running | .head | .searching _ _ | .leaving false | .waking .pass | .waking .notify
  | .noWork _ | .trying _ _ | .overCap _ | .parkNow | .registering | .waitLoad _
  | .waitFinished _ | .waitCompare _ | .waitLock _ | .blocked _ | .returned | .exited => false

/-- With a task, and past that point. -/
def Pc.busy : Pc W → Bool
  | .running | .leaving false | .waking .pass | .waking .notify => true
  | .found | .leaving true | .baton | .waking .bump | .head | .searching _ _
  | .noWork _ | .trying _ _ | .overCap _ | .parkNow | .registering | .waitLoad _
  | .waitFinished _ | .waitCompare _ | .waitLock _ | .blocked _ | .returned | .exited => false

/-- In `wake_one`, after the bump. -/
def Pc.posts : Pc W → Bool
  | .waking .pass | .waking .notify => true
  | _ => false

/-- The producer has bumped the epoch and is about to wake somebody. -/
def ProducerPc.posts : ProducerPc W → Bool
  | .waking _ .pass | .waking _ .notify => true
  | _ => false

/-- The worker answers for the queue. `tasks` is whether a worker that runs a
    task does. -/
def Worker.Answers (tasks : Bool) (epoch : Nat) (q : Queue W) (wk : Worker W) : Prop :=
  wk.willLook epoch q ∨ wk.pc.passes = true ∨ (tasks && wk.pc.busy) = true

/-- Somebody answers for the queue. -/
def State.Attended (tasks : Bool) (q : Queue W) (s : State W P) : Prop :=
  (∃ w, (s.worker w).Answers tasks s.epoch q) ∨ ∃ p, (s.producer p).announces ≠ none

/-- A bump has been made and the wake is still to come. -/
def State.Posted (s : State W P) : Prop :=
  (∃ w, (s.worker w).pc.posts = true) ∨ ∃ p, (s.producer p).posts = true

/-- Where the queue holds a task: whoever is through with it leaves it to
    somebody, and whoever sleeps at least to a wake. -/
structure Cover (tasks : Bool) (q : Queue W) (s : State W P) : Prop where
  seen : ∀ w, (s.worker w).seen s.epoch q → s.Attended tasks q
  blocked : ∀ w, (s.worker w).pc.isBlocked = true → s.Attended tasks q ∨ s.Posted

/-- A worker that does not count as a searcher leaves the queue to others. -/
def Relieved (q : Queue W) (s : State W P) (w : W) : Prop :=
  (∃ x, x ≠ w ∧ (s.worker x).Answers false s.epoch q) ∨
  (∃ p, (s.producer p).announces ≠ none) ∨
  (∀ x, ¬ (s.worker x).seen s.epoch q) ∧
    (s.Posted ∨ ∀ x, (s.worker x).pc.isBlocked = false)

/-- A searcher answers for every queue. -/
theorem answers_of_counted {c : Config} {tasks : Bool} {epoch : Nat} {q : Queue W}
    {wk : Worker W} (hok : wk.Ok c) (hx : wk.pc ≠ .exited) (h : wk.counted ≠ 0) :
    wk.Answers tasks epoch q := by
  have hor : wk.pc.place = .trying ∨ wk.since = true := by
    by_contra hno
    exact h (if_neg hno)
  -- Who has no ticket and is awake has not seen anything yet.
  have hlook : wk.ticket = none → wk.pc.awake = true → wk.Answers tasks epoch q :=
    fun ht ha => .inl ⟨ha, fun hs => by rw [show wk.ticket = _ from hs.1] at ht; cases ht⟩
  rcases hor with hplace | hs
  · unfold Worker.Ok at hok
    rw [hplace] at hok
    refine hlook hok.1 ?_
    cases hpc : wk.pc <;> rw [hpc] at hplace <;> first | rfl | cases hplace
  · rcases loop_of_since hok hs with ⟨hplace, ht⟩
    cases hpc : wk.pc
    case found => exact .inr (.inl (by rw [hpc]; rfl))
    case exited => exact absurd hpc hx
    case head | searching | noWork => exact hlook ht (by rw [hpc]; rfl)
    all_goals
      rw [hpc] at hplace
      cases hplace

/-- Outside a search and a task there is only one thing to do. -/
theorem go_of_ready {w : W} {queue : Queue W → Nat} {wk : Worker W} {st : Step W}
    (hr : wk.ready w queue st = true) (hs : ∀ passed retry, wk.pc ≠ .searching passed retry)
    (ht : wk.pc ≠ .running) : ∃ spin timed, st = .go spin timed := by
  cases st with
  | go spin timed => exact ⟨spin, timed, rfl⟩
  | help q =>
      cases hpc : wk.pc <;> simp only [Worker.ready, hpc] at hr <;> try cases hr
      exact absurd hpc ht
  | giveUp =>
      cases hpc : wk.pc <;> simp only [Worker.ready, Worker.mayGiveUp, hpc] at hr <;> try cases hr
      exact absurd hpc (hs _ _)
  | visit q x =>
      cases hpc : wk.pc <;> simp only [Worker.ready, hpc] at hr <;> try cases hr
      exact absurd hpc (hs _ _)

/-- `work_found` passes the search on if the worker was the last searcher. -/
theorem workFound_cases {c : Config} {v : View} {wk : Worker W} (hok : wk.Ok c) :
    ∃ last, (workFound c v wk).worker.pc = .leaving last ∧
      (last = false → wk.since = true → v.searching ≠ 1) := by
  unfold workFound
  cases hc : c.policy with
  | park =>
      refine ⟨false, rfl, fun _ hs => ?_⟩
      rw [since_of_park hok hc] at hs
      cases hs
  | search =>
      by_cases hs : wk.since = true
      · refine ⟨v.searching == 1, by simp [hs, Worker.moveTo], fun hlast _ => ?_⟩
        simpa using hlast
      · exact ⟨false, by simp [hs, Worker.moveTo], fun _ h => absurd h hs⟩

section

variable [DecidableEq W] {c : Config} {v : View} {wk : Worker W} {q : Queue W}

/-- A worker stops to answer for a queue in three ways: it bumps the epoch, it
    finds nobody to pass the search to, or it finds a task without being the
    last searcher. -/
theorem answers_step (tasks : Bool) {w : W} {queue : Queue W → Nat} {st : Step W}
    (hok : wk.Ok c) (ht : wk.InTime v.epoch) (hf : v.finished = false)
    (hr : wk.ready w queue st = true) (hl : wk.LooksAt q st) (hq : 0 < queue q)
    (h : wk.Answers tasks v.epoch q) :
    (wk.step c v st).worker.Answers tasks (v.epoch + (wk.step c v st).epoch) q ∨
      (wk.step c v st).epoch = 1 ∧ (wk.step c v st).worker.pc.posts = true ∨
      v.sleepers = 0 ∨
      tasks = false ∧ wk.pc = .found ∧ (∃ spin timed, st = .go spin timed) ∧
        (wk.since = true → v.searching ≠ 1) := by
  -- Nobody is through with a queue that holds a task, if not before.
  have hseen : (wk.step c v st).worker.seen (v.epoch + (wk.step c v st).epoch) q →
      wk.seen v.epoch q := fun hs => by
    rcases seen_step hok hr hl hs with ⟨h0, hbefore | hempty⟩
    · rwa [h0, Nat.add_zero] at hbefore
    · omega
  -- It answers because it is awake, because it is about to pass the baton, or because it runs a
  -- task.
  rcases h with ⟨hawake, hnot⟩ | hpasses | htasks
  · rcases awake_step (c := c) (v := v) hf hr hawake with ha | hb | ⟨hfound, _⟩
    · exact .inl (.inl ⟨ha, fun hs => hnot (hseen hs)⟩)
    · exact absurd (hseen (blocked_step ht hr hb q)) hnot
    · exact .inl (.inr (.inl (by rw [hfound]; rfl)))
  · cases hpc : wk.pc <;> rw [hpc] at hpasses
    case found =>
      rcases go_of_ready hr (by rw [hpc]; simp) (by rw [hpc]; simp) with ⟨spin, timed, rfl⟩
      rcases workFound_cases (v := v) hok with ⟨last, hlast, hnot⟩
      simp only [Worker.step, Worker.go, hpc]
      cases last with
      | true => exact .inl (.inr (.inl (by rw [hlast]; rfl)))
      | false =>
          cases tasks with
          | true => exact .inl (.inr (.inr (by rw [hlast]; rfl)))
          | false => exact .inr (.inr (.inr ⟨rfl, trivial, ⟨spin, timed, rfl⟩, hnot rfl⟩))
    case leaving last =>
      rcases go_of_ready hr (by rw [hpc]; simp) (by rw [hpc]; simp) with ⟨spin, timed, rfl⟩
      cases last with
      | false => cases hpasses
      | true =>
          left
          simp only [Worker.step, Worker.go, hpc]
          exact .inr (.inl rfl)
    case baton =>
      rcases go_of_ready hr (by rw [hpc]; simp) (by rw [hpc]; simp) with ⟨spin, timed, rfl⟩
      simp only [Worker.step, Worker.go, hpc]
      by_cases h0 : v.sleepers = 0
      · exact .inr (.inr (.inl h0))
      · left
        rw [if_neg h0]
        exact .inr (.inl rfl)
    case waking x =>
      rcases go_of_ready hr (by rw [hpc]; simp) (by rw [hpc]; simp) with ⟨spin, timed, rfl⟩
      cases x with
      | bump =>
          right; left
          simp only [Worker.step, Worker.go, hpc]
          refine ⟨trivial, ?_⟩
          cases c.wait <;> rfl
      | pass | notify => cases hpasses
    all_goals cases hpasses
  · -- A worker that runs a task runs on or comes back to the loop.
    rcases Bool.and_eq_true_iff.mp htasks with ⟨rfl, hbusy⟩
    left
    cases hpc : wk.pc <;> rw [hpc] at hbusy
    case running =>
      cases st with
      | go spin timed =>
          refine .inl ⟨by simp only [Worker.step, Worker.go, hpc]; rfl, fun hs => ?_⟩
          have hl := hs.2
          simp only [Worker.step, Worker.go, hpc] at hl
          cases hl
      | help q' => exact .inr (.inr (by simp only [Worker.step, hpc]; rfl))
      | visit | giveUp => simp [Worker.ready, Worker.mayGiveUp, hpc] at hr
    case leaving last =>
      rcases go_of_ready hr (by rw [hpc]; simp) (by rw [hpc]; simp) with ⟨spin, timed, rfl⟩
      cases last with
      | true => cases hbusy
      | false =>
          simp only [Worker.step, Worker.go, hpc]
          exact .inr (.inr rfl)
    case waking x =>
      rcases go_of_ready hr (by rw [hpc]; simp) (by rw [hpc]; simp) with ⟨spin, timed, rfl⟩
      cases x with
      | bump => cases hbusy
      | pass =>
          simp only [Worker.step, Worker.go, hpc]
          exact .inr (.inr rfl)
      | notify => simp [Worker.ready, Pc.goes, hpc] at hr
    all_goals cases hbusy

end

section

variable [DecidableEq W] [DecidableEq P] [Fintype W] {c : Config} {s : State W P} {q : Queue W}
  {tasks : Bool}

/-- A search that does not look everywhere leaves it to others: what the step of
    a worker has to meet for the invariant of a queue. -/
structure Minds (tasks : Bool) (q : Queue W) (s : State W P) (a : Action W P) : Prop where
  looks : ∀ w st, a = .work w st → (s.worker w).LooksAt q st
  relieved : tasks = false → ∀ w spin timed, a = .work w (.go spin timed) →
    (s.worker w).pc = .found → (s.worker w).since = false → Relieved q s w

omit [DecidableEq W] [DecidableEq P] in
theorem answers_later (h : Counts c s) {w : W} (n : Nat)
    (ha : (s.worker w).Answers tasks s.epoch q) :
    (s.worker w).Answers tasks (s.epoch + n) q :=
  ha.imp_left fun hlook => ⟨hlook.1, fun hs => hlook.2 (seen_before h hs)⟩

omit [DecidableEq W] [Fintype W] in
theorem answers_of_idle {epoch : Nat} {wk : Worker W} (h : wk.Answers false epoch q) :
    wk.Answers tasks epoch q :=
  h.imp_right fun h => h.imp_right fun h => nomatch h

omit [Fintype W] in
/-- Nobody leaves the loop before the pool is shut down. -/
theorem not_exited_step {v : View} {w : W} {queue : Queue W → Nat} {wk : Worker W} {st : Step W}
    (hf : v.finished = false) (hr : wk.ready w queue st = true) (hx : wk.pc ≠ .exited) :
    (wk.step c v st).worker.pc ≠ .exited := by
  -- A worker in its loop leaves it only by the check of `finished`.
  by_cases ha : wk.pc.awake = true
  · intro he
    rcases awake_step (c := c) (v := v) hf hr ha with h | h | ⟨h, _⟩ <;>
      · rw [he] at h
        cases h
  · -- The others are at work, asleep, or on their way into the loop.
    cases hpc : wk.pc <;> rw [hpc] at ha
    case running =>
      cases st with
      | go spin timed => simp [Worker.step, Worker.go, hpc, Worker.moveTo]
      | help q' => simp [Worker.step, hpc]
      | visit | giveUp => simp [Worker.ready, Worker.mayGiveUp, hpc] at hr
    case exited => exact absurd hpc hx
    case found =>
      rcases go_of_ready hr (by rw [hpc]; simp) (by rw [hpc]; simp) with ⟨spin, timed, rfl⟩
      simp only [Worker.step, Worker.go, hpc, workFound]
      split
      · rintro ⟨⟩
      · split <;> rintro ⟨⟩
    case leaving last =>
      rcases go_of_ready hr (by rw [hpc]; simp) (by rw [hpc]; simp) with ⟨spin, timed, rfl⟩
      simp only [Worker.step, Worker.go, hpc, Worker.unregister]
      split <;> simp
    case baton =>
      rcases go_of_ready hr (by rw [hpc]; simp) (by rw [hpc]; simp) with ⟨spin, timed, rfl⟩
      simp only [Worker.step, Worker.go, hpc, Worker.moveTo]
      split <;> simp
    case waking x =>
      rcases go_of_ready hr (by rw [hpc]; simp) (by rw [hpc]; simp) with ⟨spin, timed, rfl⟩
      cases x with
      | notify => simp [Worker.ready, Pc.goes, hpc] at hr
      | _ => simp [Worker.step, Worker.go, hpc, Worker.moveTo]
    case blocked timed =>
      rcases go_of_ready hr (by rw [hpc]; simp) (by rw [hpc]; simp) with ⟨spin, t, rfl⟩
      intro he
      have hawake := resume_awake (W := W) c.wait timed
      simp only [Worker.step, Worker.go, hpc, Worker.moveTo] at he
      rw [he] at hawake
      cases hawake
    all_goals exact absurd rfl ha

omit [DecidableEq P] [Fintype W] in
theorem not_exited_wake {target : Option W} {w : W} (h : (s.worker w).pc ≠ .exited) :
    ((s.wake c target).worker w).pc ≠ .exited := by
  by_cases hb : (s.worker w).pc.isBlocked = true
  · cases target with
    | none => exact h
    | some t =>
        by_cases hwt : w = t
        · subst hwt
          intro he
          have hawake := wake_awake (c := c) hb
          rw [show (s.wake c (some w)).worker w = (s.worker w).wake c from
            Function.update_self ..] at he
          rw [he] at hawake
          cases hawake
        · rwa [show (s.wake c (some t)).worker w = s.worker w from Function.update_of_ne hwt ..]
  · rwa [wake_worker_of_awake (by simpa using hb)]

/-- How a queue stops to be attended when a worker moves. -/
theorem attended_work (hc : Counts c s) (hw : NoWrap s) (hx : ∀ w, (s.worker w).pc ≠ .exited)
    (hf : s.finished = false) (hq : 0 < s.queue q) {w : W} {st : Step W}
    (hg : guard (P := P) s (.work w st)) (hm : Minds tasks q s (.work w st))
    (h : s.Attended tasks q) :
    (next c s (.work w st)).Attended tasks q ∨
      ((s.worker w).step c s.view st).epoch = 1 ∧ (next c s (.work w st)).Posted ∨
      s.sleepers = 0 ∨
      (∀ x, ¬ (s.worker x).seen s.epoch q) ∧
        (s.Posted ∨ ∀ x, (s.worker x).pc.isBlocked = false) := by
  set e := (s.worker w).step c s.view st with he
  have hself : (next c s (.work w st)).worker w = e.worker := Function.update_self ..
  have hother : ∀ x, x ≠ w → (next c s (.work w st)).worker x = s.worker x :=
    fun x hx => Function.update_of_ne hx ..
  -- Everybody else goes on to answer.
  have hstay : ∀ x, x ≠ w → (s.worker x).Answers tasks s.epoch q →
      (next c s (.work w st)).Attended tasks q := fun x hxw ha => by
    refine .inl ⟨x, ?_⟩
    rw [hother x hxw]
    exact answers_later hc e.epoch ha
  rcases h with ⟨x, ha⟩ | hp
  · by_cases hxw : x = w
    · subst hxw
      have hstep := answers_step (c := c) (v := s.view) tasks (hc.ok x)
        (fun seen ht => ⟨hc.ticket x seen ht, hw x seen ht⟩) hf hg (hm.looks x st rfl) hq ha
      rw [← he] at hstep
      rcases hstep with ha' | ⟨he1, hpost⟩ | h0 | ⟨ht, hfound, ⟨spin, timed, rfl⟩, hsince⟩
      · refine .inl (.inl ⟨x, ?_⟩)
        rw [hself]
        exact ha'
      · refine .inr (.inl ⟨he1, .inl ⟨x, ?_⟩⟩)
        rw [hself]
        exact hpost
      · exact .inr (.inr (.inl h0))
      · by_cases hs : (s.worker x).since = true
        · -- Another searcher is left.
          rcases hc.other_searcher hs (hsince hs) with ⟨y, hy, hcount⟩
          exact .inl (hstay y hy (answers_of_counted (hc.ok y) (hx y) hcount))
        · rcases hm.relieved ht x spin timed rfl hfound (by simpa using hs) with
            ⟨y, hy, hay⟩ | hp | ⟨hnone, hpost⟩
          · exact .inl (hstay y hy (answers_of_idle hay))
          · exact .inl (.inr hp)
          · exact .inr (.inr (.inr ⟨hnone, hpost⟩))
    · exact .inl (hstay x hxw ha)
  · exact .inl (.inr hp)

/-- A pending wake stays pending while workers move. -/
theorem posted_work {w : W} {st : Step W} (hg : guard (P := P) s (.work w st)) (h : s.Posted) :
    (next c s (.work w st)).Posted := by
  rcases h with ⟨x, hx⟩ | hp
  · refine .inl ⟨x, ?_⟩
    by_cases hxw : x = w
    · subst hxw
      have hself : (next c s (.work x st)).worker x =
          ((s.worker x).step c s.view st).worker := Function.update_self ..
      rw [hself]
      cases hpc : (s.worker x).pc <;> rw [hpc] at hx <;> try cases hx
      case waking y =>
        rcases go_of_ready hg (by rw [hpc]; nofun) (by rw [hpc]; nofun) with ⟨spin, timed, rfl⟩
        cases y with
        | bump => cases hx
        | pass => simp only [Worker.step, Worker.go, hpc]; rfl
        | notify => simp [guard, Worker.ready, Pc.goes, hpc] at hg
    · rwa [show (next c s (.work w st)).worker x = s.worker x from Function.update_of_ne hxw ..]
  · exact .inr hp

theorem cover_work (hc : Counts c s) (hw : NoWrap s) (hx : ∀ w, (s.worker w).pc ≠ .exited)
    (hf : s.finished = false) (hq : 0 < s.queue q) {w : W} {st : Step W}
    (hg : guard (P := P) s (.work w st)) (hm : Minds tasks q s (.work w st))
    (h : Cover tasks q s) : Cover tasks q (next c s (.work w st)) := by
  set e := (s.worker w).step c s.view st with he
  have hself : (next c s (.work w st)).worker w = e.worker := Function.update_self ..
  have hother : ∀ x, x ≠ w → (next c s (.work w st)).worker x = s.worker x :=
    fun x hx => Function.update_of_ne hx ..
  have hattended := fun ha => attended_work hc hw hx hf hq hg hm ha
  rw [← he] at hattended
  -- Whoever is through with the queue was before, or the step is its own and bumps nothing.
  have hbefore : ∀ x, ((next c s (.work w st)).worker x).seen (s.epoch + e.epoch) q →
      e.epoch = 0 ∧ (s.worker x).seen s.epoch q := fun x hs => by
    -- Who is asleep after the step has fallen asleep in it, or slept before.
    by_cases hxw : x = w
    · subst hxw
      rw [hself] at hs
      rcases seen_step (hc.ok x) hg (hm.looks x st rfl) hs with ⟨h0, hseen | hempty⟩
      · exact ⟨h0, seen_before hc hseen⟩
      · omega
    · rw [hother x hxw] at hs
      have hle := hc.ticket x _ hs.1
      exact ⟨by omega, seen_before hc hs⟩
  have hseen : ∀ x, ((next c s (.work w st)).worker x).seen (s.epoch + e.epoch) q →
      (next c s (.work w st)).Attended tasks q := fun x hs => by
    rcases hbefore x hs with ⟨h0, hs⟩
    -- The one that attends to the queue still does, or its answer is contradicted by `x`.
    rcases hattended (h.seen x hs) with ha | ⟨h1, _⟩ | h1 | ⟨hnone, _⟩
    · exact ha
    · omega
    · exact absurd (hs.1.symm.trans (hc.no_ticket h1 x)) nofun
    · exact absurd hs (hnone x)
  refine ⟨hseen, fun x hb => ?_⟩
  by_cases hxw : x = w
  · subst hxw
    rw [hself] at hb
    refine .inl (hseen x ?_)
    rw [hself]
    exact blocked_step (fun seen ht => ⟨hc.ticket x seen ht, hw x seen ht⟩) hg hb q
  · rw [hother x hxw] at hb
    rcases h.blocked x hb with ha | hp
    · rcases hattended ha with ha | ⟨_, hp⟩ | h0 | ⟨_, hp | hnobody⟩
      · exact .inl ha
      · exact .inr hp
      · exact absurd (hc.no_ticket h0 x) (ticket_of_blocked (hc.ok x) hb)
      · exact .inr (posted_work hg hp)
      · rw [hnobody x] at hb
        cases hb
    · exact .inr (posted_work hg hp)

omit [DecidableEq P] [DecidableEq W] [Fintype W] in
theorem not_blocked_of_answers {epoch : Nat} {wk : Worker W} (h : wk.Answers tasks epoch q) :
    wk.pc.isBlocked = false := by
  rcases h with ⟨ha, _⟩ | hp | hb
  · exact not_blocked_of_awake ha
  · cases hpc : wk.pc <;> rw [hpc] at hp <;> first | rfl | cases hp
  · rcases Bool.and_eq_true_iff.mp hb with ⟨_, hb⟩
    cases hpc : wk.pc <;> rw [hpc] at hb <;> first | rfl | cases hb

omit [DecidableEq W] [DecidableEq P] [Fintype W] in
/-- A queue that is attended is covered. -/
theorem cover_of_attended (h : s.Attended tasks q) : Cover tasks q s :=
  ⟨fun _ _ => h, fun _ _ => .inl h⟩

omit [DecidableEq W] [DecidableEq P] [Fintype W] in
/-- Where nobody is registered there is nothing to cover. -/
theorem cover_of_no_ticket (hok : ∀ w, (s.worker w).Ok c)
    (h : ∀ w, (s.worker w).ticket = none) : Cover tasks q s where
  seen w hs := absurd (hs.1.symm.trans (h w)) nofun
  blocked w hb := absurd (h w) (ticket_of_blocked (hok w) hb)

omit [DecidableEq P] [Fintype W] in
/-- Whoever answers is awake and goes on to answer when somebody is woken. -/
theorem attended_wake {target : Option W} (h : s.Attended tasks q) :
    (s.wake c target).Attended tasks q := by
  rcases h with ⟨w, ha⟩ | hp
  · refine .inl ⟨w, ?_⟩
    rw [wake_worker_of_awake (not_blocked_of_answers ha), epoch_wake]
    exact ha
  · refine .inr ?_
    rwa [producer_wake]

omit [DecidableEq W] [Fintype W] in
theorem attended_set {p : P} {pc : ProducerPc W} (h : s.Attended tasks q)
    (hp : (s.producer p).announces = none) : (s.setProducer p pc).Attended tasks q := by
  rcases h with hw | ⟨x, hx⟩
  · exact .inl hw
  · refine .inr ⟨x, ?_⟩
    have hxp : x ≠ p := by
      rintro rfl
      exact hx hp
    rwa [show (s.setProducer p pc).producer x = s.producer x from Function.update_of_ne hxp ..]

omit [DecidableEq W] [Fintype W] in
theorem attended_announce {p : P} {pc : ProducerPc W} (h : pc.announces ≠ none) :
    (s.setProducer p pc).Attended tasks q := by
  refine .inr ⟨p, ?_⟩
  rwa [show (s.setProducer p pc).producer p = pc from Function.update_self ..]

omit [DecidableEq P] [Fintype W] in
/-- Whoever is woken looks at the queue, or was through with it and leaves it
    to those who answered for it before. -/
theorem cover_wake {target : Option W} (hb : s.canWake target)
    (h : Cover tasks q s) : Cover tasks q (s.wake c target) ∧
      ∀ w, ((s.wake c target).worker w).pc.isBlocked = true →
        (s.wake c target).Attended tasks q := by
  -- Whoever has looked before the wake still has, or holds no ticket any more.
  have hseen : ∀ w, ((s.wake c target).worker w).seen (s.wake c target).epoch q →
      (s.wake c target).Attended tasks q := fun w hs => by
    rw [epoch_wake] at hs
    exact attended_wake (h.seen w (seen_wake hs))
  have hblocked : ∀ w, ((s.wake c target).worker w).pc.isBlocked = true →
      (s.wake c target).Attended tasks q := fun w hw => by
    cases target with
    | none =>
        have hawake : (s.worker w).pc.isBlocked = false := hb w
        rw [blocked_of_wake hw] at hawake
        cases hawake
    | some t =>
        have ht : (s.wake c (some t)).worker t = (s.worker t).wake c := Function.update_self ..
        by_cases hs : ((s.wake c (some t)).worker t).seen (s.wake c (some t)).epoch q
        · exact hseen t hs
        · refine .inl ⟨t, .inl ⟨?_, hs⟩⟩
          rw [ht]
          exact wake_awake hb
  exact ⟨⟨hseen, fun w hw => .inl (hblocked w hw)⟩, hblocked⟩

/-- The end of a worker's own `wake_one`. -/
theorem cover_notify {w : W} {target : Option W} (hg : guard s (.notify w target))
    (h : Cover tasks q s) : Cover tasks q (next c s (.notify w target)) := by
  have hpc : (s.worker w).pc = .waking .notify := pc_of_notifies hg.1
  have hself : (s.wake c target).worker w = s.worker w :=
    wake_worker_of_awake (by rw [hpc]; rfl)
  have hnext : (next c s (.notify w target)).worker w =
      ((s.wake c target).worker w).moveTo .running :=
    Function.update_self ..
  have hother : ∀ x, x ≠ w → (next c s (.notify w target)).worker x = (s.wake c target).worker x :=
    fun x hx => Function.update_of_ne hx ..
  rcases cover_wake (c := c) hg.2 h with ⟨hcover, hblocked⟩
  -- What the worker answered for in `wake_one` it answers for with its task.
  have hstay : (s.wake c target).Attended tasks q →
      (next c s (.notify w target)).Attended tasks q := by
    rintro (⟨x, ha⟩ | hp)
    · refine .inl ⟨x, ?_⟩
      by_cases hxw : x = w
      · subst hxw
        rw [hself] at ha
        rw [hnext]
        rcases ha with ⟨ha, _⟩ | ha | ha
        · rw [hpc] at ha
          cases ha
        · rw [hpc] at ha
          cases ha
        · rw [hpc] at ha
          exact .inr (.inr ha)
      · rw [hother x hxw]
        exact ha
    · exact .inr hp
  refine ⟨fun x hs => ?_, fun x hb => ?_⟩
  · by_cases hxw : x = w
    · subst hxw
      rw [hnext] at hs
      exact nomatch hs.2
    · rw [hother x hxw] at hs
      exact hstay (hcover.seen x hs)
  · by_cases hxw : x = w
    · subst hxw
      rw [hnext] at hb
      cases hb
    · rw [hother x hxw] at hb
      exact .inl (hstay (hblocked x hb))

/-- What holds until the pool is shut down. -/
structure Open (s : State W P) : Prop where
  closing : s.closing = .running
  workers : ∀ w, (s.worker w).pc ≠ .exited

theorem cover_next (hc : Counts c s) (hw : NoWrap s) (ho : Open s)
    {a : Action W P} (hg : guard s a) (hm : Minds tasks q s a) (hf : (next c s a).finished = false)
    (hq : 0 < (next c s a).queue q) (h : 0 < s.queue q → Cover tasks q s) :
    Cover tasks q (next c s a) := by
  -- A push is announced by its producer; everybody else leaves the queue attended.
  cases a with
  | work w st =>
      have hpos : 0 < s.queue q := lt_of_lt_of_le hq (queue_apply_le s w _ q)
      exact cover_work hc hw ho.workers hf hpos hg hm (h hpos)
  | notify w target => exact cover_notify hg (h (by simpa [next] using hq))
  | publish p q' =>
      cases hpolicy : c.policy with
      | park =>
          have hattended : (s.setProducer p (.loadSleepers q')).Attended tasks q :=
            attended_announce (by rintro ⟨⟩)
          simp only [next, hpolicy]
          exact cover_of_attended hattended
      | search =>
          have hattended : (s.setProducer p (.loadSearching q')).Attended tasks q :=
            attended_announce (by rintro ⟨⟩)
          simp only [next, hpolicy]
          exact cover_of_attended hattended
  | loadSearching p q' =>
      have hp : s.producer p = .loadSearching q' := hg
      by_cases h0 : s.searching = 0
      · simp only [next, if_pos h0]
        exact cover_of_attended (attended_announce (by rintro ⟨⟩))
      · -- The producer leaves the task to a searcher.
        rcases hc.some_searcher h0 with ⟨w, hcount⟩
        exact cover_of_attended (.inl ⟨w, answers_of_counted (hc.ok w) (ho.workers w) hcount⟩)
  | loadSleepers p q' =>
      by_cases h0 : s.sleepers = 0
      · simp only [next, if_pos h0]
        exact cover_of_no_ticket hc.ok (hc.no_ticket h0)
      · simp only [next, if_neg h0]
        exact cover_of_attended (attended_announce (by rintro ⟨⟩))
  | bump p q' =>
      refine ⟨fun w hs => absurd hs (not_seen_succ hc w), fun w hb => .inr (.inr ⟨p, ?_⟩)⟩
      simp only [next, State.setProducer, Function.update_self]
      cases c.wait <;> rfl
  | pass p q' =>
      have hp : s.producer p = .waking q' .pass := hg
      have hcover := h hq
      refine ⟨fun w hs => attended_set (hcover.seen w hs) (by rw [hp]; rfl), fun w hb => ?_⟩
      refine .inr (.inr ⟨p, ?_⟩)
      simp only [next, State.setProducer, Function.update_self]
      rfl
  | wakeOne p q' target =>
      rcases cover_wake (c := c) hg.2 (h (by simpa [next, State.setProducer] using hq)) with
        ⟨hcover, hblocked⟩
      have hp : ((s.wake c target).producer p).announces = none := by
        rw [producer_wake, show s.producer p = .waking q' .notify from hg.1]
        rfl
      exact ⟨fun w hs => attended_set (hcover.seen w hs) hp,
        fun w hb => .inl (attended_set (hblocked w hb) hp)⟩
  | finish => cases hf
  | closeBump | closePass | wakeAll =>
      exact absurd (ho.closing.symm.trans hg) (by simp)

/-- Once finished the pool stays so. -/
theorem open_of_next {a : Action W P} (h : (next c s a).finished = false) :
    s.finished = false := by
  cases a with
  | notify w target => simpa [next] using h
  | wakeOne p q target => simpa [next, State.setProducer] using h
  | finish => cases h
  | _ => exact h

/-- A step leaves the pool open unless it is shut down. -/
theorem open_next (h : Open s) (hs : s.finished = false) {a : Action W P} (hg : guard s a)
    (hf : (next c s a).finished = false) : Open (next c s a) := by
  -- Only `finish` begins a shutdown.
  cases a with
  | work w st =>
      refine ⟨h.closing, fun x => ?_⟩
      by_cases hxw : x = w
      · subst hxw
        rw [show (next c s (.work x st)).worker x = ((s.worker x).step c s.view st).worker from
          Function.update_self ..]
        exact not_exited_step hs hg (h.workers x)
      · rw [show (next c s (.work w st)).worker x = s.worker x from Function.update_of_ne hxw ..]
        exact h.workers x
  | notify w target =>
      refine ⟨by cases target <;> exact h.closing, fun x => ?_⟩
      by_cases hxw : x = w
      · subst hxw
        rw [show ((next c s (.notify x target)).worker x).pc = .running by
          simp [next, Worker.moveTo]]
        simp
      · rw [show (next c s (.notify w target)).worker x = (s.wake c target).worker x from
          Function.update_of_ne hxw ..]
        exact not_exited_wake (h.workers x)
  | wakeOne p q' target =>
      exact ⟨by cases target <;> exact h.closing, fun x => not_exited_wake (h.workers x)⟩
  | finish => cases hf
  | closeBump | closePass | wakeAll => exact absurd (h.closing.symm.trans hg) (by simp)
  | publish | loadSearching | loadSleepers | bump | pass => exact ⟨h.closing, h.workers⟩

end

end Idle

end Cmpth

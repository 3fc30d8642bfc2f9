import Cmpth.Idle.Search

/-!
# Whether Somebody Keeps Looking

`SearchIdle` documents that while work is around somebody keeps looking: a
producer may leave its task to a searcher, and the last searcher that finds a
task wakes a sleeper. A worker that was woken from the park is not counted as a
searcher, though. When it finds one task of a burst it is nobody's last
searcher, and nobody is woken for the rest.

In the runs in which such a worker leaves nothing to others but what others
look at, the rule holds in every state in which nothing is in flight, also
after a shutdown.

## Main definitions

* `SomebodyLooks`: The rule.
* `Handed`: The condition on the steps of a run.
* `Shut`: What a shutdown has come to.

## Theorems

* `exact_of_noWrap`: Without a wrap, what the worker compares is what it means.
* `not_late_work`: A worker that moves does not fall asleep after the bump of a shutdown.
* `compare_of_wake`: Waking somebody makes nobody late.
* `shut_next`, `shut_init`: What a shutdown has come to stays so.
* `batonInv_init`, `batonInv_next`: The invariant holds along every run that meets the condition.
* `somebodyLooks_of_inv`: Where nothing is in flight, whoever answers for a queue will look at it.
* `somebody_looks`: The rule holds along every run that meets the condition.
* `burst_left`: A burst of three tasks, of which the last is left.
* `handed_of_no_ticket`: A step of a pool in which nobody is registered hands everything on, as long
  as whoever finds a task counts as a searcher.
* `somebody_looks_found`: A searcher that finds a task.
-/

namespace Cmpth

namespace Idle

variable {W P : Type*}

/-- While a task is queued and somebody sleeps, somebody awake will look at the
    queue, unless an operation is in flight. -/
def SomebodyLooks (s : State W P) : Prop :=
  Quiet s → (∀ x, s.closing ≠ .waking x) → ∀ q, 0 < s.queue q →
    (∃ w, (s.worker w).pc.isBlocked = true) → ∃ w, (s.worker w).willLook s.epoch q

/-- The epoch does not come round while a ticket is out; the search of a
    registered worker looks at every queue; and a worker that does not count as
    a searcher, when it finds a task, leaves the queued ones to others. -/
structure Handed (s : State W P) (a : Action W P) : Prop where
  noWrap : NoWrap s
  looks : LooksEverywhere s a
  relieved : s.finished = false → ∀ w spin timed, a = .work w (.go spin timed) →
    (s.worker w).pc = .found → (s.worker w).since = false →
    ∀ q, 0 < s.queue q → Relieved q s w

section

variable [DecidableEq W] [DecidableEq P] [Fintype W] {c : Config} {s : State W P}

/-- What a shutdown has come to: once it has bumped the epoch nobody falls
    asleep any more, and after its wake nobody sleeps. -/
structure Shut (s : State W P) : Prop where
  finished : s.finished = true ↔ s.closing ≠ .running
  stale : s.closing ≠ .running → s.closing ≠ .waking .bump →
    ∀ w t, (s.worker w).pc = .waitCompare t → (s.worker w).ticket ≠ some s.epoch
  awake : s.closing = .done → ∀ w, (s.worker w).pc.isBlocked = false

/-- A comparison in the kernel that is due is not deceived by an epoch that has come round. -/
def Exact (s : State W P) : Prop :=
  ∀ w t, (s.worker w).pc = .waitCompare t → (s.worker w).unchanged s.view = true →
    (s.worker w).ticket = some s.epoch

omit [DecidableEq W] [DecidableEq P] in
theorem exact_of_noWrap (hc : Counts c s) (hw : NoWrap s) : Exact s := by
  intro w t _ hu
  exact ticket_of_unchanged (fun seen ht => ⟨hc.ticket w seen ht, hw w seen ht⟩) hu

omit [DecidableEq P] in
/-- A worker that moves does not fall asleep after the bump of a shutdown. -/
theorem not_late_work (h : Shut s) (hx : Exact s) (hr : s.closing ≠ .running)
    (hb : s.closing ≠ .waking .bump) {w : W} {st : Step W}
    (hg : guard (P := P) s (.work w st)) :
    ((s.worker w).step c s.view st).worker.pc.late ≠ true := by
  intro hl
  have hfin : s.finished = true := h.finished.mpr hr
  have hopen : s.view.finished ≠ false := by
    rw [show s.view.finished = s.finished from rfl, hfin]
    nofun
  rcases late_step (c := c) (v := s.view) hg hl with ⟨_, hf⟩ | ⟨⟨t, hpc⟩ | hf, hu⟩
  · exact hopen hf
  · exact h.stale hr hb w t hpc (hx w t hpc hu)
  · exact hopen hf

omit [DecidableEq P] [Fintype W] in
/-- Waking somebody makes nobody late. -/
theorem compare_of_wake (target : Option W) {w : W} {t : Bool}
    (h : ((s.wake c target).worker w).pc = .waitCompare t) :
    (s.worker w).pc = .waitCompare t := by
  -- A worker that was blocked is woken, or stays blocked; neither is at the compare.
  by_cases hb : (s.worker w).pc.isBlocked = true
  · cases target with
    | none => exact h
    | some x =>
        by_cases hx : w = x
        · subst hx
          rw [show (s.wake c (some w)).worker w = (s.worker w).wake c from
            Function.update_self ..] at h
          cases hpc : (s.worker w).pc
          case blocked timed =>
            simp only [Worker.wake, hpc, Worker.moveTo] at h
            cases hwait : c.wait <;> rw [hwait] at h <;> cases timed <;> cases h
          all_goals
            rw [hpc] at hb
            cases hb
        · rwa [show (s.wake c (some x)).worker w = s.worker w from
            Function.update_of_ne hx ..] at h
  · rwa [wake_worker_of_awake (by simpa using hb)] at h

theorem shut_next (h : Shut s) (hc : Counts c s) (hexact : Exact s) {a : Action W P}
    (hg : guard s a) : Shut (next c s a) := by
  -- The steps that move no worker and leave the epoch alone or behind.
  have hsame : ∀ s' : State W P, s'.worker = s.worker → s.epoch ≤ s'.epoch →
      s'.finished = s.finished → s'.closing = s.closing → Shut s' := by
    intro s' hw' he hf hcl
    refine ⟨by rw [hf, hcl]; exact h.finished, fun hr hb x t hpc ht => ?_, fun hd x => ?_⟩
    · rw [hcl] at hr hb
      rw [hw'] at hpc ht
      have hle := hc.ticket x _ ht
      exact h.stale hr hb x t hpc (by rw [ht]; congr 1; omega)
    · rw [hcl] at hd
      rw [hw']
      exact h.awake hd x
  -- A wake only makes workers run.
  have hwake : ∀ target, Shut (s.wake c target) := by
    intro target
    have hcl : (s.wake c target).closing = s.closing := by cases target <;> rfl
    refine ⟨by rw [finished_wake, hcl]; exact h.finished, fun hr hb x t hpc ht => ?_,
      fun hd x => ?_⟩
    · rw [hcl] at hr hb
      rw [ticket_wake, epoch_wake] at ht
      exact h.stale hr hb x t (compare_of_wake target hpc) ht
    · rw [hcl] at hd
      by_contra hx
      have hb := blocked_of_wake (by simpa using hx)
      rw [h.awake hd x] at hb
      cases hb
  -- Workers move on to the check of `finished`, which the shutdown has set before it bumps.
  cases a with
  | work w st =>
      have hself : (next c s (.work w st)).worker w = ((s.worker w).step c s.view st).worker :=
        Function.update_self ..
      have hother : ∀ x, x ≠ w → (next c s (.work w st)).worker x = s.worker x :=
        fun x hx => Function.update_of_ne hx ..
      refine ⟨h.finished, fun hr hb x t hpc ht => ?_, fun hd x => ?_⟩
      · by_cases hx : x = w
        · subst hx
          rw [hself] at hpc
          exact not_late_work h hexact hr hb hg (by rw [hpc]; rfl)
        · rw [hother x hx] at hpc ht
          have hle := hc.ticket x _ ht
          have he : (next c s (.work w st)).epoch =
            s.epoch + ((s.worker w).step c s.view st).epoch := rfl
          exact h.stale hr hb x t hpc (by rw [ht]; congr 1; omega)
      · have hdone : s.closing = .done := hd
        by_cases hx : x = w
        · subst hx
          rw [hself]
          by_contra hblocked
          refine not_late_work (c := c) h hexact (by rw [hdone]; simp) (by rw [hdone]; simp) hg ?_
          cases hpc : ((s.worker x).step c s.view st).worker.pc <;> rw [hpc] at hblocked <;>
            first | rfl | exact absurd rfl hblocked
        · rw [hother x hx]
          exact h.awake hdone x
  | notify w target =>
      have hself : ((next c s (.notify w target)).worker w).pc = .running := by
        simp [next, Worker.moveTo]
      have hother : ∀ x, x ≠ w →
          (next c s (.notify w target)).worker x = (s.wake c target).worker x :=
        fun x hx => Function.update_of_ne hx ..
      have hw := hwake target
      refine ⟨hw.finished, fun hr hb x t hpc ht => ?_, fun hd x => ?_⟩
      · by_cases hx : x = w
        · subst hx
          rw [hself] at hpc
          cases hpc
        · rw [hother x hx] at hpc ht
          exact hw.stale hr hb x t hpc ht
      · by_cases hx : x = w
        · subst hx
          rw [hself]
          rfl
        · rw [hother x hx]
          exact hw.awake hd x
  | wakeOne p q target =>
      have hw := hwake target
      exact ⟨hw.finished, hw.stale, hw.awake⟩
  | bump p q => exact hsame _ rfl (Nat.le_succ _) rfl rfl
  | publish | loadSearching | loadSleepers | pass => exact hsame _ rfl le_rfl rfl rfl
  | finish =>
      exact ⟨⟨(by rintro _ ⟨⟩), fun _ => rfl⟩, fun _ hb => absurd rfl hb, (by rintro ⟨⟩)⟩
  | closeBump =>
      have hcl : s.closing = .waking .bump := hg
      refine ⟨⟨fun _ => by rintro ⟨⟩, fun _ => h.finished.mpr (by rw [hcl]; simp)⟩,
        fun _ _ x t _ ht => ?_, (by rintro ⟨⟩)⟩
      have hle := hc.ticket x _ ht
      exact absurd hle (by simp [next])
  | closePass =>
      have hcl : s.closing = .waking .pass := hg
      refine ⟨⟨fun _ => by rintro ⟨⟩, fun _ => h.finished.mpr (by rw [hcl]; simp)⟩,
        fun _ _ => h.stale (by rw [hcl]; simp) (by rw [hcl]; simp), (by rintro ⟨⟩)⟩
  | wakeAll =>
      have hcl : s.closing = .waking .notify := hg
      have hcompare : ∀ x t, ((s.worker x).wake c).pc = .waitCompare t →
          (s.worker x).wake c = s.worker x := by
        intro x t hpc
        by_cases hb : (s.worker x).pc.isBlocked = true
        · exact absurd (compare_of_wake (c := c) (some x) (by
            rw [show (s.wake c (some x)).worker x = (s.worker x).wake c from
              Function.update_self ..]
            exact hpc)) (by
            intro hne
            rw [hne] at hb
            cases hb)
        · exact wake_of_awake (by simpa using hb)
      refine ⟨⟨fun _ => by rintro ⟨⟩, fun _ => h.finished.mpr (by rw [hcl]; simp)⟩,
        fun _ _ x t hpc ht => ?_, fun _ x => ?_⟩
      · have hsame := hcompare x t hpc
        simp only [next] at hpc ht
        rw [hsame] at hpc ht
        exact h.stale (by rw [hcl]; simp) (by rw [hcl]; simp) x t hpc ht
      · simp only [next]
        by_cases hb : (s.worker x).pc.isBlocked = true
        · exact not_blocked_of_awake (wake_awake hb)
        · rw [wake_of_awake (by simpa using hb)]
          simpa using hb

omit [DecidableEq W] [DecidableEq P] [Fintype W] in
theorem shut_init (hi : init s) : Shut s := by
  have hcl : s.closing = .running := hi.2.2.2.2.2.2
  refine ⟨by simp [hi.2.2.2.2.2.1, hcl], fun hr => absurd hcl hr, fun hd => ?_⟩
  rw [hcl] at hd
  cases hd

/-- The invariant of the runs that keep the rule. -/
structure BatonInv (c : Config) (s : State W P) : Prop where
  counts : Counts c s
  shut : Shut s
  open_ : s.finished = false → Open s
  cover : s.finished = false → ∀ q, 0 < s.queue q → Cover false q s

theorem batonInv_init (hi : init s) : BatonInv c s := by
  have hfresh : ∀ w, s.worker w = .fresh := hi.1
  have hcl : s.closing = .running := hi.2.2.2.2.2.2
  refine ⟨counts_reachable (.init s hi), shut_init hi, fun _ => ⟨hcl, fun w => ?_⟩,
    fun _ q _ => ?_⟩
  · rw [hfresh w]
    nofun
  · refine cover_of_no_ticket (c := c) (fun w => ?_) fun w => ?_
    · rw [hfresh w]
      exact ok_fresh c
    · rw [hfresh w]
      rfl

theorem batonInv_next (h : BatonInv c s) {a : Action W P} (hg : guard s a) (ha : Handed s a) :
    BatonInv c (next c s a) where
  counts := counts_step h.counts a hg
  shut := shut_next h.shut h.counts (exact_of_noWrap h.counts ha.noWrap) hg
  open_ hf := open_next (h.open_ (open_of_next hf)) (open_of_next hf) hg hf
  cover hf q hq :=
    cover_next h.counts ha.noWrap (h.open_ (open_of_next hf)) hg
      { looks := by
          rintro w st rfl
          exact ha.looks q
        relieved := by
          rintro _ w spin timed rfl hpc hs
          exact ha.relieved (open_of_next hf) w spin timed rfl hpc hs q
            (lt_of_lt_of_le hq (queue_apply_le s w _ q)) }
      hf hq (h.cover (open_of_next hf) q)

omit [DecidableEq W] [DecidableEq P] in
/-- Where nothing is in flight, whoever answers for a queue will look at it. -/
theorem somebodyLooks_of_inv (h : BatonInv c s) : SomebodyLooks s := by
  rintro hquiet hcl q hq ⟨w, hw⟩
  have hf : s.finished = false := by
    by_contra hf
    -- After a shutdown nobody sleeps.
    have hr := h.shut.finished.mp (by simpa using hf)
    cases hx : s.closing with
    | running => exact hr hx
    | waking x => exact hcl x hx
    | done =>
        rw [h.shut.awake hx w] at hw
        cases hw
  rcases (h.cover hf q hq).blocked w hw with (⟨x, ha⟩ | ⟨p, hp⟩) | (⟨x, hx⟩ | ⟨p, hp⟩)
  · refine ⟨x, ?_⟩
    have hqx := hquiet.workers x
    rcases ha with hlook | hpasses | hbusy
    · exact hlook
    · cases hpc : (s.worker x).pc <;> rw [hpc] at hqx hpasses <;>
        first | (cases hqx; done) | cases hpasses
    · cases hbusy
  · rw [hquiet.producers p] at hp
    exact absurd rfl hp
  · have hqx := hquiet.workers x
    cases hpc : (s.worker x).pc <;> rw [hpc] at hqx hx <;> first | (cases hqx; done) | cases hx
  · rw [hquiet.producers p] at hp
    cases hp

end

/-- While a task is queued somebody keeps looking, in every state of every run
    in which no worker that does not count as a searcher leaves a task to
    nobody. -/
theorem somebody_looks [DecidableEq W] [DecidableEq P] [Fintype W] (wait : ParkWait)
    (cap : Nat → Nat → Nat → Nat) (s : State W P) (as : List (Action W P))
    (hi : (system (searchIdle wait cap)).init s)
    (hl : (system (searchIdle wait cap)).Legal s as)
    (ha : (system (searchIdle wait cap)).Along Handed s as) :
    (system (searchIdle wait cap)).Throughout SomebodyLooks s as :=
  System.throughout_of_along _ (fun _ h => somebodyLooks_of_inv h)
    (fun _ _ h hg hc => batonInv_next h hg hc) as s (batonInv_init hi) hl ha

/-- Three workers and no tasks. -/
def three : State (Fin 3) Unit where
  worker _ := .fresh
  producer _ := .idle
  queue _ := 0
  sleepers := 0
  searching := 0
  epoch := 0
  finished := false
  closing := .running

/-- So many steps of a worker, one after the other. -/
def goes (w : Fin 3) (n : Nat) : List (Action (Fin 3) Unit) :=
  List.replicate n (.work w (.go false false))

/-- The worker finds the cap reached, registers, looks everywhere and falls
    asleep. -/
def sleepRun (w : Fin 3) : List (Action (Fin 3) Unit) :=
  goes w 1 ++ [Action.work w .giveUp] ++ goes w 6 ++
    [Action.work w (.visit (some 0) .empty), .work w (.visit (some 1) .empty),
      .work w (.visit (some 2) .empty), .work w (.visit none .empty), .work w .giveUp] ++ goes w 4

/-- One worker searches, the others sleep, and three tasks come in for which
    nobody is woken. The searcher finds the first one and wakes a worker, which
    is not counted as a searcher and finds the second one. -/
def burstRun : List (Action (Fin 3) Unit) :=
  goes 0 1 ++ [Action.work 0 .giveUp] ++ goes 0 2 ++ sleepRun 1 ++ sleepRun 2 ++
    (List.replicate 3 [Action.publish () none, .loadSearching () none]).flatten ++
    goes 0 1 ++ [Action.work 0 (.visit none .take)] ++ goes 0 4 ++ [Action.notify 0 (some 1)] ++
    goes 1 2 ++ [Action.work 1 (.visit none .take)] ++ goes 1 2

/-- The third task is left: two workers run tasks and the last one sleeps. -/
theorem burst_left :
    (system (searchIdle .futex goCap)).init three ∧
      (system (searchIdle .futex goCap)).Legal three burstRun ∧
      ¬ SomebodyLooks ((system (searchIdle .futex goCap)).run three burstRun) := by
  refine ⟨⟨fun _ => rfl, fun _ => rfl, rfl, rfl, rfl, rfl, rfl⟩, by decide +kernel, fun h => ?_⟩
  have hnobody : ∀ w, ¬ (((system (searchIdle .futex goCap)).run three burstRun).worker w).willLook
      ((system (searchIdle .futex goCap)).run three burstRun).epoch none := by decide +kernel
  have hclosing : ((system (searchIdle .futex goCap)).run three burstRun).closing = .running := by
    decide +kernel
  rcases h ⟨by decide +kernel, by decide +kernel⟩ (fun x => by rw [hclosing]; nofun) none
    (by decide +kernel) ⟨2, by decide +kernel⟩ with ⟨w, hw⟩
  exact hnobody w hw

/-- A step of a pool in which nobody is registered hands everything on, as long
    as whoever finds a task counts as a searcher. -/
theorem handed_of_no_ticket {s : State W P} {a : Action W P}
    (ht : ∀ w, (s.worker w).ticket = none)
    (hs : ∀ w, (s.worker w).pc = .found → (s.worker w).since = true) : Handed s a where
  noWrap w _ h := absurd ((ht w).symm.trans h) nofun
  looks := by
    cases a with
    | work w st => exact fun _ _ h => absurd (ht w) h
    | _ => trivial
  relieved _ w _ _ _ hpc hsince := by
    rw [hs w hpc] at hsince
    cases hsince

/-- A searcher finds the only task. -/
def foundRun : List (Action Unit Unit) :=
  fruitless ++ [Action.work () (.go false false), .publish () none, .loadSearching () none,
    .work () (.go false false), .work () (.visit none .take), .work () (.go false false),
    .work () (.go false false), .work () (.go false false)]

theorem somebody_looks_found :
    (system (searchIdle .futex goCap)).Throughout SomebodyLooks alone foundRun := by
  refine somebody_looks .futex goCap alone foundRun
    ⟨fun _ => rfl, fun _ => rfl, rfl, rfl, rfl, rfl, rfl⟩ (by decide) ?_
  refine ⟨?_, ?_, ?_, ?_, ?_, ?_, ?_, ?_, ?_, ?_, ?_, trivial⟩ <;>
    exact handed_of_no_ticket (fun _ => rfl) fun _ h => by first | rfl | exact nomatch h

end Idle

end Cmpth

import Cmpth.Idle.Cover

/-!
# `SearchIdle` Never Leaves Everybody Asleep

A task in the external queue is covered because every registered worker looks
there before it sleeps; a task in a worker's own queue because nobody else
pushes to it, so that the worker finds it itself. Both hold for any steal
policy.

What they rest on is that a ticket is not older than the epoch can tell. The
epoch has 32 bits, and nothing keeps it from coming round while a worker is
between two loads of its wait: such a worker falls asleep beside the queued
tasks of a full turn.

## Main definitions

* `SearchInv`: The invariant.

## Theorems

* `looks_of_guard`: A registered worker has looked at its own queue and the external one when it
  gives up.
* `own_next`: A worker that is through with its own queue finds it empty.
* `searchInv_next`: Every action keeps the invariant.
* `searchInv_reachable`: The invariant holds in every state without a wrap.
* `not_attended`: Nobody answers for a queue where nothing is in flight and everybody sleeps.
* `never_all_asleep`: Not everybody sleeps beside a queued task, and the counters count.
* `searched_succ`, `comparing_succ`, `comparing_zero`: A worker that searches in vain, and the
  pushes meanwhile.
* `searched_reachable`, `comparing_reachable`, `compared_reachable`, `noWrap_of_epoch`: Those states
  are reached.
* `asleep_after_turn`: After `2 ^ 32` bumps a worker may sleep beside as many tasks.
* `never_all_asleep_alone`: Without pushes it sleeps beside empty queues.
-/

namespace Cmpth

namespace Idle

variable {W P : Type*}

section

variable [DecidableEq W] [DecidableEq P] [Fintype W] {c : Config} {s : State W P}

/-- The invariant, for the queues every search looks at. -/
structure SearchInv (c : Config) (s : State W P) : Prop where
  counts : Counts c s
  open_ : s.finished = false → Open s
  external : s.finished = false → 0 < s.queue none → Cover true none s
  /-- A worker leaves its own queue empty. -/
  own : ∀ w n, (s.worker w).seen n (some w) → s.queue (some w) = 0

omit [DecidableEq W] [DecidableEq P] [Fintype W] in
/-- A registered worker has looked at its own queue and the external one when
    it gives up. -/
theorem looks_of_guard {w : W} {st : Step W} (hg : guard (P := P) s (.work w st)) :
    (s.worker w).LooksAt (some w) st ∧ (s.worker w).LooksAt none st := by
  have hpassed : st = .giveUp → (s.worker w).ticket ≠ none →
      ∀ passed, (s.worker w).pc = .searching passed false →
        passed (some w) = true ∧ passed none = true := by
    rintro rfl ht passed hpc
    have hg : (s.worker w).mayGiveUp w = true := hg
    unfold Worker.mayGiveUp at hg
    rw [hpc] at hg
    simpa [ht] using hg
  exact ⟨fun hst ht passed hpc => (hpassed hst ht passed hpc).1,
    fun hst ht passed hpc => (hpassed hst ht passed hpc).2⟩

theorem own_next (h : SearchInv c s) {a : Action W P} (hg : guard s a) {w : W} {n : Nat}
    (hs : ((next c s a).worker w).seen n (some w)) : (next c s a).queue (some w) = 0 := by
  -- The worker's own queue is filled by its own pushes, which it does not make in its loop.
  cases a with
  | work x st =>
      have hle : (next c s (.work x st)).queue (some w) ≤ s.queue (some w) :=
        queue_apply_le s x _ _
      by_cases hw : w = x
      · subst hw
        rw [show (next c s (.work w st)).worker w = ((s.worker w).step c s.view st).worker from
          Function.update_self ..] at hs
        rcases seen_step (h.counts.ok w) hg (looks_of_guard hg).1 hs with ⟨_, hbefore | hempty⟩
        · have hzero := h.own w n hbefore
          omega
        · omega
      · rw [show (next c s (.work x st)).worker w = s.worker w from
          Function.update_of_ne hw ..] at hs
        have hzero := h.own w n hs
        omega
  | notify x target =>
      by_cases hw : w = x
      · subst hw
        simp only [next, Function.update_self] at hs
        cases hs.2
      · simp only [next, Function.update_of_ne hw] at hs
        simpa [next] using h.own w n (seen_wake hs)
  | publish p q =>
      by_cases hq : q = some w
      · -- Only the code the worker runs pushes to its queue.
        subst hq
        have hpush : (s.worker w).mayPush = true := hg.2
        rcases hs with ⟨ht, hl⟩
        have hl : (s.worker w).pc.looked (some w) = true := hl
        have ht : (s.worker w).ticket = some n := ht
        unfold Worker.mayPush at hpush
        cases hpc : (s.worker w).pc <;> rw [hpc] at hpush hl <;> try cases hpush
        · cases hl
        · rw [ht] at hpush
          cases hpush
      · rw [show (next c s (.publish p q)).queue (some w) = s.queue (some w) from
          Function.update_of_ne (Ne.symm hq) ..]
        exact h.own w n hs
  | wakeOne p q target =>
      simpa [next, State.setProducer] using h.own w n
        (seen_wake (by simpa [next, State.setProducer] using hs))
  | wakeAll =>
      refine h.own w n ?_
      by_cases hb : (s.worker w).pc.isBlocked = true
      · exact ⟨(wake_ticket _).symm.trans hs.1, looked_of_blocked hb _⟩
      · simp only [next, wake_of_awake (by simpa using hb)] at hs
        exact hs
  | loadSearching | loadSleepers | bump | pass | finish | closeBump | closePass =>
      exact h.own w n hs

theorem searchInv_next (h : SearchInv c s) (hw : NoWrap s) {a : Action W P} (hg : guard s a) :
    SearchInv c (next c s a) where
  counts := counts_step h.counts a hg
  open_ hf := open_next (h.open_ (open_of_next hf)) (open_of_next hf) hg hf
  external hf hq :=
    cover_next h.counts hw (h.open_ (open_of_next hf)) hg
      { looks := by
          rintro w st rfl
          exact (looks_of_guard hg).2
        relieved := nofun }
      hf hq (h.external (open_of_next hf))
  own _ _ hs := own_next h hg hs

theorem searchInv_reachable (h : (system c).ReachableIf (fun s _ => NoWrap s) s) :
    SearchInv c s := by
  refine h.induct (fun s hi => ?_) fun s a h hg hw => searchInv_next h hw hg
  have hfresh : ∀ w, s.worker w = .fresh := hi.1
  refine ⟨counts_reachable (.init s hi), fun _ => ⟨hi.2.2.2.2.2.2, fun w => ?_⟩, fun _ _ => ?_,
    fun w n hs => ?_⟩
  · rw [hfresh w]
    nofun
  · refine cover_of_no_ticket (c := c) (fun w => ?_) fun w => ?_
    · rw [hfresh w]
      exact ok_fresh c
    · rw [hfresh w]
      rfl
  · rw [hfresh w] at hs
    exact nomatch hs.1

omit [DecidableEq W] [DecidableEq P] [Fintype W] in
/-- Nobody answers for a queue where nothing is in flight and everybody
    sleeps. -/
theorem not_attended (tasks : Bool) (q : Queue W) (hp : ∀ p, s.producer p = .idle)
    (hall : ∀ w, (s.worker w).pc.isBlocked = true) : ¬ s.Attended tasks q ∧ ¬ s.Posted := by
  refine ⟨?_, ?_⟩
  · rintro (⟨w, ha⟩ | ⟨p, hne⟩)
    · have hb := hall w
      rw [not_blocked_of_answers ha] at hb
      cases hb
    · rw [hp p] at hne
      exact hne rfl
  · rintro (⟨w, hw⟩ | ⟨p, hpost⟩)
    · have hb := hall w
      cases hpc : (s.worker w).pc <;> rw [hpc] at hw hb <;> first | cases hw | cases hb
    · rw [hp p] at hpost
      cases hpost

end

/-- `SearchIdle` never leaves everybody asleep beside a queued task before
    shutdown, as long as the epoch does not come round while a ticket is out.
    Where nothing is in flight `searching` counts the searchers and `sleepers`
    the tickets, and neither is ever negative. -/
theorem never_all_asleep [DecidableEq W] [DecidableEq P] [Fintype W] (wait : ParkWait)
    (cap : Nat → Nat → Nat → Nat) :
    (∀ s : State W P,
      (system (searchIdle wait cap)).ReachableIf (fun s _ => NoWrap s) s →
      Quiet s → s.finished = false → Nonempty W →
      (∀ w, (s.worker w).pc.isBlocked = true) → ∀ q, s.queue q = 0) ∧
    (∀ s : State W P, (system (searchIdle wait cap)).Reachable s →
      (Quiet s →
        s.searching = (Finset.univ.filter fun w => (s.worker w).since = true).card ∧
        s.sleepers = (Finset.univ.filter fun w => (s.worker w).ticket.isSome).card) ∧
      0 ≤ s.searching ∧ 0 ≤ s.sleepers) := by
  refine ⟨fun s h hquiet hf hne hall q => ?_, fun s h => ?_⟩
  · have hinv := searchInv_reachable h
    -- All of them asleep and nobody in a call: the queues are attended by nobody.
    rcases not_attended true none hquiet.producers hall with ⟨hnot, hpost⟩
    cases q with
    | none =>
        rcases hne with ⟨w⟩
        by_contra hq
        rcases (hinv.external hf (Nat.pos_of_ne_zero hq)).blocked w (hall w) with ha | hp
        · exact hnot ha
        · exact hpost hp
    | some w =>
        cases ht : (s.worker w).ticket with
        | none => exact absurd ht (ticket_of_blocked (hinv.counts.ok w) (hall w))
        | some n => exact hinv.own w n ⟨ht, looked_of_blocked (hall w) _⟩
  · have hcounts := counts_reachable h
    exact ⟨fun hquiet => ⟨hcounts.searching_quiet hquiet, hcounts.sleepers_quiet hquiet⟩,
      hcounts.searching_nonneg, hcounts.sleepers_nonneg⟩

/-- A pool of one worker and no tasks. -/
def alone : State Unit Unit where
  worker _ := .fresh
  producer _ := .idle
  queue _ := 0
  sleepers := 0
  searching := 0
  epoch := 0
  finished := false
  closing := .running

/-- The worker counts as a searcher, after `n` rounds that found nothing. -/
def searched (n : Nat) : State Unit Unit where
  worker _ := { Worker.fresh with since := true, rounds := n }
  producer _ := .idle
  queue _ := 0
  sleepers := 0
  searching := 1
  epoch := 0
  finished := false
  closing := .running

/-- A round of the loop that finds nothing. -/
def fruitless : List (Action Unit Unit) :=
  [.work () (.go false false), .work () .giveUp, .work () (.go false false)]

/-- The last round: the worker registers, looks at both queues and comes to the
    comparison in the kernel. -/
def toCompare : List (Action Unit Unit) :=
  fruitless ++
    [Action.work () (.go false false), .work () (.go false false), .work () (.go false false),
      .work () (.visit (some ()) .empty), .work () (.visit none .empty), .work () .giveUp,
      .work () (.go false false), .work () (.go false false), .work () (.go false false)]

/-- The worker is about to compare, and `n` tasks have been pushed since it
    registered. -/
def comparing (n : Nat) : State Unit Unit where
  worker _ :=
    { pc := .waitCompare false
      ticket := some 0
      rounds := 129
      since := false
      parking := true }
  producer _ := .idle
  queue q := if q = none then n else 0
  sleepers := 1
  searching := 0
  epoch := n
  finished := false
  closing := .running

/-- A task is pushed, and the wake for it finds nobody in the kernel. -/
def pushOne : List (Action Unit Unit) :=
  [.publish () none, .loadSearching () none, .loadSleepers () none, .bump () none,
    .wakeOne () none none]

theorem searched_succ (n : Nat) (h : n < 15) :
    (system (searchIdle .futex goCap)).run (searched n) fruitless = searched (n + 1) := by
  have hround : ¬ (n + 1) % 16 = 0 := by omega
  have hupdate : ∀ (f : Unit → Worker Unit) wk, Function.update f () wk = fun _ => wk :=
    fun _ _ => funext fun _ => rfl
  simp [System.run, fruitless, system, next, State.apply, State.view, Worker.step, Worker.go,
    Worker.moveTo, Worker.fresh, searched, searchNoWork, searchIdle, hupdate, hround]

theorem comparing_succ (n : Nat) :
    (system (searchIdle .futex goCap)).run (comparing n) pushOne = comparing (n + 1) := by
  have hupdate : ∀ (f : Unit → ProducerPc Unit) pc, Function.update f () pc = fun _ => pc :=
    fun _ _ => funext fun _ => rfl
  have hqueue : Function.update (comparing n).queue none ((comparing n).queue none + 1) =
      (comparing (n + 1)).queue := by
    funext q
    cases q <;> rfl
  simp only [System.run, pushOne, system, next, searchIdle, State.setProducer, State.wake,
    hqueue, ParkWait.afterBump]
  simp [comparing, hupdate]

theorem searched_reachable (n : Nat) (h : n ≤ 15) :
    (system (searchIdle .futex goCap)).ReachableIf (fun s _ => NoWrap s) (searched n) := by
  have hticket : ∀ s : State Unit Unit, (s.worker ()).ticket = none → NoWrap s :=
    fun s ht w seen hw => absurd (ht.symm.trans hw) nofun
  induction n with
  | zero =>
      have hrun : (system (searchIdle .futex goCap)).run alone
          (fruitless ++ [.work () (.go false false)]) = searched 0 := by
        rfl
      rw [← hrun]
      exact System.reachableIf_run _ _ _
        (.init _ ⟨fun _ => rfl, fun _ => rfl, rfl, rfl, rfl, rfl, rfl⟩) (by decide)
        ⟨hticket _ rfl, hticket _ rfl, hticket _ rfl, hticket _ rfl, trivial⟩
  | succ n ih =>
      rw [← searched_succ n h]
      exact System.reachableIf_run _ _ _ (ih (by omega)) ⟨rfl, rfl, rfl, trivial⟩
        ⟨hticket _ rfl, hticket _ rfl, hticket _ rfl, trivial⟩

theorem comparing_zero :
    (system (searchIdle .futex goCap)).run (searched 15) toCompare = comparing 0 := by
  have hqueue : (fun _ => 0 : Queue Unit → Nat) = (comparing 0).queue := by
    funext q
    cases q <;> rfl
  change { comparing 0 with queue := fun _ => 0 } = comparing 0
  rw [hqueue]

theorem comparing_reachable (n : Nat) :
    (system (searchIdle .futex goCap)).Reachable (comparing n) := by
  induction n with
  | zero =>
      rw [← comparing_zero]
      exact System.reachableIf_run _ _ _ (searched_reachable 15 le_rfl).reachable (by decide)
        (System.along_true ..)
  | succ n ih =>
      rw [← comparing_succ]
      exact System.reachableIf_run _ _ _ ih
        ⟨⟨rfl, rfl⟩, rfl, rfl, rfl, ⟨rfl, fun _ => rfl⟩, trivial⟩ (System.along_true ..)

/-- The comparison, `n` pushes after the worker registered. -/
def compared (n : Nat) : State Unit Unit :=
  (system (searchIdle .futex goCap)).next (comparing n) (.work () (.go false false))

/-- After a full turn of the epoch the worker falls asleep, beside the tasks of
    `2 ^ 32` pushes. -/
theorem asleep_after_turn :
    (system (searchIdle .futex goCap)).Reachable (compared (2 ^ 32)) ∧
      Quiet (compared (2 ^ 32)) ∧ (compared (2 ^ 32)).finished = false ∧
      (∀ w, ((compared (2 ^ 32)).worker w).pc.isBlocked = true) ∧
      (compared (2 ^ 32)).queue none = 2 ^ 32 :=
  ⟨.step _ _ (comparing_reachable _) rfl trivial, ⟨fun _ => rfl, fun _ => rfl⟩, rfl,
    fun _ => rfl, rfl⟩

theorem noWrap_of_epoch {s : State Unit Unit} (h : s.epoch < 2 ^ 32) : NoWrap s :=
  fun _ _ _ => lt_of_lt_of_le h (Nat.le_add_left _ _)

theorem compared_reachable :
    (system (searchIdle .futex goCap)).ReachableIf (fun s _ => NoWrap s) (compared 0) := by
  have hz : ∀ {s : State Unit Unit}, s.epoch = 0 → NoWrap s :=
    fun h => noWrap_of_epoch (by omega)
  refine .step _ _ ?_ rfl (hz rfl)
  rw [← comparing_zero]
  exact System.reachableIf_run _ _ _ (searched_reachable 15 le_rfl) (by decide)
    ⟨hz rfl, hz rfl, hz rfl, hz rfl, hz rfl, hz rfl, hz rfl, hz rfl, hz rfl, hz rfl, hz rfl,
      hz rfl, trivial⟩

/-- Without pushes it sleeps beside empty queues. -/
theorem never_all_asleep_alone :
    (∀ w, ((compared 0).worker w).pc.isBlocked = true) ∧ ∀ q, (compared 0).queue q = 0 :=
  ⟨fun _ => rfl, (never_all_asleep .futex goCap).1 _ compared_reachable
    ⟨fun _ => rfl, fun _ => rfl⟩ rfl ⟨()⟩ fun _ => rfl⟩

end Idle

end Cmpth

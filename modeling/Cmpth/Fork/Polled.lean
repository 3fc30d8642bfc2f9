import Cmpth.Fork.Driven
import Cmpth.Fork.Tokens

/-!
# Polled by One

The steps of the stackless parallel calls keep the invariant, and a call runs
`b` once.

A step of a worker that drives a task needs the task's token, and a step of a
`BranchPoll` needs the call to be past the comparison. The invariant never has
both. What the task does once its future is done is up to the join protocol.

## Theorems

* `ofTask_of_exits`: The steps after the future is done are steps of the task.
* `exiting_of_exits`, `exiting_exit`, `frees_exit`, `frees_free`: What the steps of an exit do to
  the join.
* `handle_exit`: No joiner waits in `join`, so none is resumed.
* `frees_le`: One side frees the descriptor, if any.
* `frees_of_free`: Whoever frees the descriptor is the first.
* `frees_of_reclaim`, `frees_async`, `written_async`: What the handle's steps do to it.
* `written_of_take`: The handle's owner takes the result of a task that has published it.
* `awaited_next`: A handle that is awaited stays so, and comes to its end only by taking the result
  and freeing the descriptor.
* `TaskOk.step`: A step of the task keeps what holds at each stage.
* `TaskOk.drive`: A task that is being driven is not done, and nobody else gets at it.
* `Inv.made`: A token stands for a task that has been made.
* `Inv.shift`: A waiting token is handed on.
* `init_made`: The join word of a task that has just been built.
* `inv_build`: A task that has just been built.
* `Driven.unfreed`: The stages in which the call has the handle and has not used it.
* `inv_decide`: The caller's own comparison: it has popped `b`, or puts back what it has.
* `inv_aReady`: The steps of the call on its way to the comparison.
* `inv_pop`, `inv_drop`, `inv_pollBranch`, `inv_branchPending`, `inv_branchReady`, `inv_freeBranch`,
  `inv_leave`, `inv_reclaim`, `inv_handle`: The actions of a caller and of a handle's owner.
* `Branched.uses`: A call past the comparison has its `b` to itself.
* `Driven.handle`: A step of the handle moves the handle only, unless it frees the descriptor.
* `Driven.reclaim`: The last step of the handle frees the descriptor of a task that is through.
* `handles_stage`: What a step of the handle makes of the stage.
* `Inv.driven`: A step that a worker takes with the token of the task.
* `inv_begin`, `inv_pending`, `inv_dropWaker`, `inv_park`, `inv_complete`, `inv_exit`: The actions
  of a worker.
* `Driven.running`: The polls of a task whose worker is in the poll of its future.
* `Driven.parking`: A task that has returned from a poll and is not yet parked.
* `Driven.exits`: What the task does when it is through.
* `inv_wake`: A wake of a waker of this task or of an earlier one.
* `inv_next`, `inv_reachable`: Every step keeps the invariant.
* `inv_init`: The invariant holds at the beginning.
* `Driven.once`, `Gone.once`, `TaskOk.once`: The future is polled by one party at a time, and is
  ready once.
* `driven_once`: The future of `b` is polled by one party at a time and is ready once, its memory is
  freed once, and the call returns both results.
* `driven_once_requeued`: A `b` that has been driven, woken and popped.
-/

namespace Cmpth

namespace Fork

namespace Stackless

open Join (TaskPc HandlePc JoinState)
open Waker (WakeState)

variable {K W Q D R : Type*}

section Join

variable [DecidableEq D] {j : Join.State (JoinState D) D D} {a : Join.Action (JoinState D) D D}

omit [DecidableEq D] in
/-- The steps after the future is done are steps of the task. -/
theorem ofTask_of_exits (ha : exits a = true) : Join.Call.ofTask a = true := by
  cases a with
  | write x | swap | wake b | claim b | dropResult p | free p | dropWaker p => rfl
  | _ => cases ha

omit [DecidableEq D] in
theorem exiting_of_exits (ha : exits a = true) (hg : Join.guard (words D) j a) :
    j.task.exiting = true := by
  cases a with
  | write x | swap | wake b | claim b | dropResult p | free p =>
      rw [show j.task = _ from hg]
      rfl
  | dropWaker p =>
      rw [show j.task = _ from hg]
      cases p with
      | true => rfl
      | false => cases ha
  | _ => cases ha

theorem exiting_exit (ha : exits a = true) (hg : Join.guard (words D) j a) :
    (Join.next (words D) j a).task.exiting = true := by
  rw [Join.exiting_next hg fun he => ?_]
  · exact exiting_of_exits ha hg
  · rw [he] at ha
    cases ha

/-- No joiner waits in `join`, so none is resumed. -/
theorem handle_exit (ha : exits a = true) : (Join.next (words D) j a).handle = j.handle :=
  handle_same (ofTask_of_exits ha) fun _ he => nomatch he ▸ ha

theorem frees_exit (ha : exits a = true) (hf : ∀ p, a ≠ .free p) :
    (Join.next (words D) j a).frees = j.frees := by
  change (Join.effect (words D) j a).frees = j.frees
  cases a with
  | free p => exact absurd rfl (hf p)
  | write x | dropWaker x => cases x <;> rfl
  | swap | wake b | claim b | dropResult p => rfl
  | _ => cases ha

theorem frees_free {p : Bool} :
    (Join.next (words D) j (.free p)).frees = Join.Side.task :: j.frees := by
  cases p <;> rfl

/-- One side frees the descriptor, if any. -/
theorem frees_le (hj : Join.Inv (words D) j) : j.frees.length ≤ 1 := by
  obtain ⟨st, hat⟩ := hj
  have hc := hat.accounted
  -- By the phase of the task: who of the two is the last to give up.
  cases hp : j.task.phase with
  | unpublished | handing b | dropping p | resuming b | broken | freeing p =>
      rw [hp] at hc
      rw [hc.2]
      exact Nat.zero_le 1
  | discarded =>
      rw [hp] at hc
      rw [hc.2]
      exact Nat.le_refl 1
  | published =>
      rw [hp] at hc
      cases hh : j.handle with
      | gone =>
          rw [hh] at hc
          obtain ⟨side, -, hf⟩ := hc
          rw [hf]
          exact Nat.le_refl 1
      | held | isFinished x | load op | loadWaker | boxing cur | exchange op cur | unbox b
      | parked x | take | reclaim =>
          rw [hh] at hc
          rw [hc.2]
          exact Nat.zero_le 1

/-- Whoever frees the descriptor is the first. -/
theorem frees_of_free (hj : Join.Inv (words D) j) {p : Bool} (ht : j.task = .free p) :
    j.frees = [] := by
  obtain ⟨st, hat⟩ := hj
  have hc := hat.accounted
  rw [ht] at hc
  exact hc.2

theorem frees_of_reclaim (hj : Join.Inv (words D) j) (hh : j.handle = .reclaim) :
    j.frees = [] := by
  obtain ⟨st, hat⟩ := hj
  have hf := hat.fits
  have hc := hat.accounted
  rw [hh] at hf hc
  -- While the handle reclaims the task has published, and frees nothing.
  cases hp : j.task.phase with
  | published =>
      rw [hp] at hc
      exact hc.2
  | unpublished =>
      rw [hp] at hf
      exact hf.2.elim
  | handing b | resuming b =>
      rw [hp] at hf
      obtain ⟨y, -, hy, -⟩ := hf
      cases hy
  | dropping p | freeing p =>
      rw [hp] at hf
      cases p <;> cases hf.2
  | discarded =>
      rw [hp] at hf
      cases hf.2
  | broken =>
      rw [hp] at hf
      exact hf.elim

/-- The handle's owner takes the result of a task that has published it. -/
theorem written_of_take (hj : Join.Inv (words D) j) (hh : j.handle = .take ∨ j.handle = .reclaim) :
    j.written = true := by
  obtain ⟨st, hat⟩ := hj
  have hf := hat.fits
  refine hat.written ?_
  -- Who takes has found the word finished, so the task has written before.
  cases ht : j.task with
  | idle | running | park | handoff | abandoned =>
      rw [ht] at hf
      rcases hh with hh | hh <;> rw [hh] at hf <;> exact hf.2.elim
  | write x =>
      rw [ht] at hf
      cases x with
      | none => rcases hh with hh | hh <;> rw [hh] at hf <;> exact hf.2.elim
      | some b =>
          obtain ⟨y, -, hy, -⟩ := hf
          rcases hh with hh | hh <;> rw [hh] at hy <;> cases hy
  | dropResult p | free p =>
      rw [ht] at hf
      cases p <;> rcases hh with hh | hh <;> rw [hh] at hf <;> cases hf.2
  | dropWaker p =>
      rw [ht] at hf
      cases p with
      | true => rfl
      | false => rcases hh with hh | hh <;> rw [hh] at hf <;> exact hf.2.elim
  | done p =>
      rw [ht] at hf
      cases p with
      | true => rfl
      | false => rcases hh with hh | hh <;> rw [hh] at hf <;> cases hf.2
  | doubleExit =>
      rw [ht] at hf
      exact hf.elim
  | commit b | swap | resume b | wake b | claim b => rfl

theorem written_async (ha : Join.Call.ofHandle .async a = true) :
    (Join.next (words D) j a).written = j.written := by
  change (Join.effect (words D) j a).written = j.written
  cases a with
  | isFinished x | load op | loadWaker | exchange op cur spurious =>
      simp only [Join.effect]
      split <;> first | rfl | (split <;> rfl)
  | await _ | awaitForeign | abandon | box cur b | unbox b | dropReplaced b | take | reclaim => rfl
  | _ => cases ha

theorem frees_async (ha : Join.Call.ofHandle .async a = true) (hr : a ≠ .reclaim) :
    (Join.next (words D) j a).frees = j.frees := by
  change (Join.effect (words D) j a).frees = j.frees
  cases a with
  | reclaim => exact absurd rfl hr
  | isFinished x | load op | loadWaker | exchange op cur spurious =>
      simp only [Join.effect]
      split <;> first | rfl | (split <;> rfl)
  | await _ | awaitForeign | abandon | box cur b | unbox b | dropReplaced b | take => rfl
  | _ => cases ha

/-- A handle that is awaited stays so, and comes to its end only by taking the
    result and freeing the descriptor. -/
theorem awaited_next (ha : Join.Call.ofHandle .async a = true) (hw : awaited j.handle = true)
    (hg : Join.guard (words D) j a) (h1 : a ≠ .abandon) (h2 : a ≠ .take) (h3 : a ≠ .reclaim) :
    awaited (Join.next (words D) j a).handle = true ∧
      ((Join.next (words D) j a).handle = .reclaim → j.handle = .reclaim) ∧
      ((Join.next (words D) j a).handle = .gone → j.handle = .gone) := by
  change awaited (Join.effect (words D) j a).handle = true ∧
    ((Join.effect (words D) j a).handle = .reclaim → j.handle = .reclaim) ∧
    ((Join.effect (words D) j a).handle = .gone → j.handle = .gone)
  -- The actions that end it are excluded, and the others go on with the await.
  cases a with
  | abandon => exact absurd rfl h1
  | take => exact absurd rfl h2
  | reclaim => exact absurd rfl h3
  | dropReplaced b => exact ⟨hw, id, id⟩
  | await _ | awaitForeign | box cur b | unbox b => exact ⟨rfl, (by rintro ⟨⟩), (by rintro ⟨⟩)⟩
  | isFinished x | loadWaker =>
      simp only [Join.effect]
      split <;> exact ⟨rfl, (by simp), (by simp)⟩
  | load op =>
      rw [show j.handle = _ from hg] at hw
      simp only [Join.effect]
      cases op with
      | abandon => cases hw
      | join x | await x | waker b => split <;> exact ⟨rfl, (by rintro ⟨⟩), (by rintro ⟨⟩)⟩
  | exchange op cur spurious =>
      rw [show j.handle = _ from hg] at hw
      simp only [Join.effect]
      cases op with
      | abandon => cases hw
      | join x | await x | waker b =>
          split
          · exact ⟨rfl, (by rintro ⟨⟩), (by rintro ⟨⟩)⟩
          · split <;> exact ⟨rfl, (by rintro ⟨⟩), (by rintro ⟨⟩)⟩
  | _ => cases ha

end Join

section Task

variable [DecidableEq D] {t t' : Task W D R} {p p' : Option (Spot K W Q)} {x x' : WakeState}

/-- A step of the task, which the caller of a `BranchPoll` does not take part
    in. -/
theorem TaskOk.step (h : TaskOk t p x) (hnot : ¬ (t.join.task = .idle ∧ (p = none ∨ t.frees = 1)))
    (hstage : t'.stage = t.stage) (haval : t'.aVal = t.aVal)
    (hhandle : t'.join.handle = t.join.handle)
    (hval : t.join.task.exiting = true → t'.bVal = t.bVal ∧ t'.ready = t.ready)
    (hfrees : t.frees = 1 → t'.frees = 1) (hm : t.stage ≠ .unmade)
    (hd : Driven t p x → Driven t' p' x') : TaskOk t' p' x' := by
  -- The caller does not have the future, so the token drives it.
  have hbranch : ¬ Branched t p x := fun hb => hnot ⟨hb.task, Or.inl hb.gone⟩
  have hgone : ¬ Gone t := fun hg => hnot ⟨hg.task, Or.inr hg.frees⟩
  have hresult : ∀ rb, Driven t p x → Result t rb → Result t' rb := by
    intro rb hdr hr
    have hex : t.join.task.exiting = true := by
      cases he : t.join.task.exiting with
      | true => rfl
      | false => exact absurd ((hdr.fit.undone he).ready.symm.trans hr.2.2.1) (by simp)
    rw [Result, (hval hex).1, (hval hex).2]
    exact ⟨hr.1, hr.2.1, hr.2.2.1, hfrees hr.2.2.2⟩
  unfold TaskOk at h ⊢
  rw [hstage, haval, hhandle]
  -- At each stage what is asked of a driven task is asked again; the results are kept.
  cases hst : t.stage with
  | unmade => exact absurd hst hm
  | spawned | dropping =>
      rw [hst] at h
      exact hd h
  | pending =>
      rw [hst] at h
      exact ⟨hd h.1, h.2⟩
  | popping ra | popped ra =>
      rw [hst] at h
      exact ⟨⟨hd h.1.1, h.1.2⟩, h.2⟩
  | branch ra | polling ra | freeing ra rb =>
      rw [hst] at h
      exact absurd h.1 hbranch
  | awaiting ra rb =>
      rw [hst] at h
      obtain ⟨hdr, ha, hw, hr, hg⟩ := h
      refine ⟨hd hdr, ha, hw, fun hh => ?_, fun hh => hresult rb hdr (hg hh)⟩
      rw [(hval (hdr.slot (written_of_take hdr.join (Or.inr hh))).1).1]
      exact hr hh
  | returned ra rb =>
      rw [hst] at h
      rcases h.1 with hdr | hg
      · exact ⟨Or.inl (hd hdr), h.2.1, hresult rb hdr h.2.2⟩
      · exact absurd hg hgone
  | dropped =>
      rw [hst] at h
      rcases h with hdr | hg
      · exact Or.inl ⟨hd hdr.1, hdr.2⟩
      · exact absurd hg.1 hgone

/-- A task that is being driven is not done, and nobody else gets at it. -/
theorem TaskOk.drive (h : TaskOk t p x) {y : Spot K W Q} (hp : p = some y) (hf : t.frees = 0)
    (hstage : t'.stage = t.stage) (haval : t'.aVal = t.aVal)
    (hhandle : t'.join.handle = t.join.handle) (he : t.join.task.exiting = false)
    (hm : t.stage ≠ .unmade) (hd : Driven t p x → Driven t' p' x') : TaskOk t' p' x' := by
  refine h.step ?_ hstage haval hhandle (fun he' => absurd (he.symm.trans he') (by simp))
    (fun h1 => absurd (hf.symm.trans h1) (by simp)) hm hd
  rintro ⟨-, hn | h1⟩
  · exact nomatch hp.symm.trans hn
  · exact absurd (hf.symm.trans h1) (by simp)

end Task

section Steps

variable [DecidableEq K] [DecidableEq W] [DecidableEq Q] [DecidableEq D]
variable {s : State K W Q D R} {place : D → Option (Spot K W Q)} {k : K} {d : D} {w : W} {q : Q}

omit [DecidableEq K] [DecidableEq W] [DecidableEq Q] in
theorem Inv.made (h : Inv s place) {y : Spot K W Q} (hd : d ∈ s.tokens y) (hb : s.body d = some k) :
    Uses (s.task k) d ∧ place d = some y ∧ TaskOk (s.task k) (some y) (s.wake d) := by
  have hu := (h.body d k).mp hb
  have hp := h.placed.mem.mp hd
  have hok := h.tasks k
  rw [hu.2.2, hp] at hok
  exact ⟨hu, hp, hok⟩

/-- A waiting token is handed on. -/
theorem Inv.shift (h : Inv s place) {y z : Spot K W Q} (hd : d ∈ s.tokens y)
    (hy : y.waiting = true) (hz : z.waiting = true) (hzy : z ≠ y) :
    Inv (s.move y z d) (Function.update place d (some z)) := by
  obtain ⟨k, hu⟩ := h.used (h.placed.mem.mp hd)
  obtain ⟨-, -, hok⟩ := h.made hd ((h.body d k).mpr hu)
  refine h.keep (k := k) (t := s.task k) (x := s.wake d) hu ?_ rfl ?_ (h.placed.move hd hzy) hu
    (hok.shift hu.1 hu.2.1 hy hz)
  · exact (Function.update_eq_self ..).symm
  · exact (Function.update_eq_self ..).symm

omit [DecidableEq D] in
theorem init_made (root : Bool) : Join.init (words D) (made D root) := by
  refine ⟨?_, rfl, rfl, rfl, rfl, rfl, fun _ => rfl, fun _ => rfl, fun _ => rfl, fun _ => rfl, rfl,
    rfl⟩
  cases root with
  | true => exact Or.inr ⟨rfl, rfl⟩
  | false => exact Or.inl ⟨rfl, rfl⟩

/-- A task that has just been built. -/
theorem inv_build (h : Inv s place) {stage : Stage R} {root : Bool}
    (hm : (s.task k).stage = .unmade) (hb : s.body d = none)
    (hst : stage = .spawned ∨ stage = .pending ∧ root = false) :
    ∃ place', Inv (s.build q k d stage root) place' := by
  have hnone : ∀ k', ¬ Uses (s.task k') d :=
    fun k' hu => absurd (hb.symm.trans ((h.body d k').mpr hu)) (by rintro ⟨⟩)
  have hjoin : Join.Inv (words D) (made D root) := Join.inv_init (init_made root)
  have hpd := (h.empty d hb).1
  refine ⟨_, h.change (k := k) (p := some (.queued q)) (x := .idle) (b := some k)
    (fun k' hu => absurd hu (hnone k')) (fun d' hu => absurd hm hu.1) rfl rfl rfl
    (h.placed.put hpd (.queued q)) rfl (Or.inl ⟨rfl, ?_, rfl, rfl⟩) ?_⟩
  · rcases hst with rfl | ⟨rfl, -⟩ <;> simp
  · -- A task that is queued at its making is driven by that token.
    have hdriven : ∀ t : Task W D R, t.join = made D root → t.inside = [] → t.ready = 0 →
        t.frees = 0 → Driven t (some (Spot.queued q : Spot K W Q)) .idle := by
      intro t hj hin hr hf
      refine ⟨hj ▸ hjoin, hj ▸ rfl, hf.trans (by rw [hj]; rfl), ?_, fun hw => ?_⟩
      · rw [hj]
        exact ⟨⟨hf, hr⟩, hin, Or.inr ⟨by simp, _, rfl, rfl⟩⟩
      · rw [hj] at hw
        cases hw
    rcases hst with rfl | ⟨rfl, rfl⟩
    · exact hdriven _ rfl rfl rfl rfl
    · exact ⟨hdriven _ rfl rfl rfl rfl, rfl⟩

omit [DecidableEq K] [DecidableEq W] [DecidableEq Q] in
/-- The stages in which the call has the handle and has not used it. -/
theorem Driven.unfreed {t : Task W D R} {p : Option (Spot K W Q)} {x : WakeState}
    (h : Driven t p x) (hh : t.join.handle = .held) : t.frees = 0 := by
  rw [h.frees, (Join.Call.nothing_of_held h.join hh).2]
  rfl

/-- The caller's own comparison: it has popped `b`, or puts back what it has. -/
theorem inv_decide (h : Inv s place) {ra : R} (hg : guard s (.decide q k ra d)) :
    ∃ place', Inv (next s (.decide q k ra d)) place' := by
  obtain ⟨hst, hd⟩ := hg
  have hok := h.tasks k
  unfold TaskOk at hok
  rw [hst] at hok
  obtain ⟨⟨hdr, hh⟩, ha⟩ := hok
  have hm : (s.task k).stage ≠ .unmade := by simp [hst]
  -- It is its own `b`, whose token is now nobody's, or another task that goes back.
  by_cases he : d = (s.task k).desc
  · have hu : Uses (s.task k) d := ⟨hm, hdr.unfreed hh, he.symm⟩
    obtain ⟨-, hp, hok⟩ := h.made hd ((h.body d k).mpr hu)
    obtain ⟨hpc, hundone, hin, hx⟩ := (hok.token hm hu.2.1).fit.waiting hu.2.1 rfl
    refine ⟨Function.update place d none, ?_⟩
    simp only [next, if_pos he]
    refine h.keep (k := k) (x := s.wake d) hu rfl rfl ?_ (h.placed.take hd)
      ⟨by simp, hu.2.1, hu.2.2⟩ ?_
    · exact (Function.update_eq_self ..).symm
    · exact ⟨⟨hu.2.1, hpc, rfl, hx⟩, ha, hin, hundone.ready⟩
  · simp only [next, if_neg he]
    have h' := h.shift (z := .queued q) hd rfl rfl (by simp)
    refine ⟨_, h'.record hm (by simp) rfl rfl ?_⟩
    have hok' := h'.tasks k
    unfold TaskOk at hok' ⊢
    rw [show ((s.move (.held k) (.queued q) d).task k).stage = _ from hst] at hok'
    obtain ⟨⟨hdr', hh'⟩, ha'⟩ := hok'
    refine ⟨hdr'.restage _ _, ha', ?_, fun hc => ?_, fun hc => ?_⟩
    · rw [show (s.task k).join.handle = .held from hh]
      rfl
    · exact nomatch hh.symm.trans hc
    · exact nomatch hh.symm.trans hc

/-- The steps of the call on its way to the comparison. -/
theorem inv_aReady (h : Inv s place) {ra : R} (hg : (s.task k).stage = .pending) :
    Inv (next s (.aReady k ra)) place := by
  have hok := h.tasks k
  unfold TaskOk at hok
  rw [hg] at hok
  refine h.record (by simp [hg]) (by simp) rfl rfl ?_
  exact ⟨⟨hok.1.restage _ _, hok.2⟩, rfl⟩

theorem inv_pop (h : Inv s place) {ra : R} {o : Option D} (hg : guard s (.pop q k ra o)) :
    ∃ place', Inv (next s (.pop q k ra o)) place' := by
  obtain ⟨hst, hq⟩ := hg
  have hm : (s.task k).stage ≠ .unmade := by simp [hst]
  cases o with
  | none =>
      have hok := h.tasks k
      unfold TaskOk at hok
      rw [hst] at hok
      obtain ⟨⟨hdr, hh⟩, ha⟩ := hok
      refine ⟨place, h.record hm (by simp) rfl rfl ⟨hdr.restage _ _, ha, ?_, ?_, ?_⟩⟩
      · rw [show (s.task k).join.handle = .held from hh]
        rfl
      · exact fun hc => nomatch hh.symm.trans hc
      · exact fun hc => nomatch hh.symm.trans hc
  | some d =>
      -- The token may be anybody's.
      have h' := h.shift (z := .held k) (hq d rfl) rfl rfl (by simp)
      have hok := h'.tasks k
      unfold TaskOk at hok
      rw [show ((s.move (.queued q) (.held k) d).task k).stage = _ from hst] at hok
      exact ⟨_, h'.record hm (by simp) rfl rfl ⟨⟨hok.1.1.restage _ _, hok.1.2⟩, hok.2⟩⟩

omit [DecidableEq K] [DecidableEq W] [DecidableEq Q] [DecidableEq D] in
/-- A call past the comparison has its `b` to itself. -/
theorem Branched.uses {t : Task W D R} {p : Option (Spot K W Q)} {x : WakeState}
    (hb : Branched t p x) (hm : t.stage ≠ .unmade) : Uses t t.desc :=
  ⟨hm, hb.frees, rfl⟩

theorem inv_drop (h : Inv s place) (hg : guard s (.drop k)) : Inv (next s (.drop k)) place := by
  have hok := h.tasks k
  unfold TaskOk at hok
  rcases hg with hst | ⟨ra, hst⟩
  · rw [hst] at hok
    simp only [next, hst]
    refine h.record (by simp [hst]) (by simp) rfl rfl ?_
    exact Or.inl ⟨hok.1.restage _ _, hok.2⟩
  · rw [hst] at hok
    obtain ⟨hb, -, hin, hr⟩ := hok
    simp only [next, hst]
    refine h.freed (hb.uses (by simp [hst])) rfl hb.gone hb.unparked ?_
    exact Or.inr ⟨⟨by rw [hb.frees], hb.task, hin⟩, hr⟩

theorem inv_pollBranch (h : Inv s place) {ra : R} (hst : (s.task k).stage = .branch ra) :
    Inv (next s (.pollBranch k ra)) place := by
  have hok := h.tasks k
  unfold TaskOk at hok
  rw [hst] at hok
  obtain ⟨hb, ha, hin, hr⟩ := hok
  refine h.record (by simp [hst]) (by simp) rfl rfl ?_
  exact ⟨⟨hb.frees, hb.task, hb.gone, hb.unparked⟩, ha, by rw [hin], hr⟩

theorem inv_branchPending (h : Inv s place) {ra : R} (hst : (s.task k).stage = .polling ra) :
    Inv (next s (.branchPending k ra)) place := by
  have hok := h.tasks k
  unfold TaskOk at hok
  rw [hst] at hok
  obtain ⟨hb, ha, hin, hr⟩ := hok
  refine h.record (by simp [hst]) (by simp) rfl rfl ?_
  refine ⟨⟨hb.frees, hb.task, hb.gone, hb.unparked⟩, ha, ?_, hr⟩
  rw [hin]
  exact List.erase_cons_head (none : Option W) []

theorem inv_branchReady (h : Inv s place) {ra rb : R} (hst : (s.task k).stage = .polling ra) :
    Inv (next s (.branchReady k ra rb)) place := by
  have hok := h.tasks k
  unfold TaskOk at hok
  rw [hst] at hok
  obtain ⟨hb, ha, hin, hr⟩ := hok
  refine h.record (by simp [hst]) (by simp) rfl rfl ?_
  refine ⟨⟨hb.frees, hb.task, hb.gone, hb.unparked⟩, ha, ?_, by rw [hr], rfl⟩
  rw [hin]
  exact List.erase_cons_head (none : Option W) []

theorem inv_freeBranch (h : Inv s place) {ra rb : R} (hst : (s.task k).stage = .freeing ra rb) :
    Inv (next s (.freeBranch k ra rb)) place := by
  have hok := h.tasks k
  unfold TaskOk at hok
  rw [hst] at hok
  obtain ⟨hb, ha, hin, hr, hv⟩ := hok
  refine h.freed (hb.uses (by simp [hst])) rfl hb.gone hb.unparked ?_
  have hfrees : (s.task k).frees + 1 = 1 := by rw [hb.frees]
  exact ⟨Or.inr ⟨hfrees, hb.task, hin⟩, ha, hv.symm, by rw [hv]; simp, hr, hfrees⟩

theorem inv_leave (h : Inv s place) {ra : R} {rb : Option R} (hg : guard s (.leave k ra rb)) :
    Inv (next s (.leave k ra rb)) place := by
  obtain ⟨hst, hh, -⟩ := hg
  have hok := h.tasks k
  unfold TaskOk at hok
  rw [hst] at hok
  obtain ⟨hdr, ha, -, -, hgone⟩ := hok
  refine h.record (by simp [hst]) (by simp) rfl rfl ?_
  exact ⟨Or.inl (hdr.restage _ _), ha, hgone hh⟩

omit [DecidableEq K] [DecidableEq W] [DecidableEq Q] in
/-- A step of the handle moves the handle only, unless it frees the
    descriptor. -/
theorem Driven.handle {t : Task W D R} {p : Option (Spot K W Q)} {x : WakeState}
    (h : Driven t p x) {a : Join.Action (JoinState D) D D}
    (ha : Join.Call.ofHandle .async a = true) (hg : Join.guard (words D) t.join a)
    (hr : a ≠ .reclaim) (st : Stage R) : Driven { t.step a with stage := st } p x := by
  have htask : (Join.next (words D) t.join a).task = t.join.task := Join.Call.task_handle ha
  refine ⟨Join.inv_next h.join hg, Join.Call.kind_next.trans h.kind,
    h.frees.trans (by rw [← frees_async ha hr]; rfl), ?_, fun hw => ?_⟩
  · change Fit _ p x (Join.next (words D) t.join a).task
    rw [htask]
    exact h.fit.congr rfl rfl rfl rfl
  · change _ ∧ t.slot = t.bVal
    change (Join.next (words D) t.join a).written = true at hw
    change (Join.next (words D) t.join a).task.exiting = true ∧ _
    rw [htask]
    exact h.slot ((written_async ha).symm.trans hw)

omit [DecidableEq K] [DecidableEq W] [DecidableEq Q] in
/-- The last step of the handle frees the descriptor of a task that is
    through. -/
theorem Driven.reclaim {t : Task W D R} {p : Option (Spot K W Q)} {x : WakeState}
    (h : Driven t p x) (hg : t.join.handle = .reclaim) :
    t.frees = 0 ∧ p = none ∧ x ≠ .parked ∧ t.ready = 1 ∧ t.bVal ≠ none ∧
      Driven { t.step .reclaim with frees := t.frees + 1 } p x := by
  have hf : t.frees = 0 := by rw [h.frees, frees_of_reclaim h.join hg]; rfl
  have he := (h.slot (written_of_take h.join (Or.inr hg))).1
  have ht := h.fit.through he
  refine ⟨hf, (ht.quiet hf).1, (ht.quiet hf).2, ht.ready, ht.value, Join.inv_next h.join hg, h.kind,
    ?_, ?_, h.slot⟩
  · change t.frees + 1 = t.join.frees.length + 1
    rw [h.frees]
  · exact (fit_exiting he).mpr ⟨ht.inside, ht.ready, ht.value, fun hn => nomatch hn⟩

theorem inv_reclaim (h : Inv s place) (hst : (s.task k).stage.handles = true)
    (hg : (s.task k).join.handle = .reclaim) : Inv (next s (.handle k .reclaim)) place := by
  have hok := h.tasks k
  change Inv (s.free k ((s.task k).step .reclaim)) place
  -- Only a task with a handle can be reclaimed by it.
  cases hst' : (s.task k).stage with
  | spawned | dropping =>
      have hcase : (s.task k).stage = .spawned ∨ (s.task k).stage = .dropping := by simp [hst']
      obtain ⟨hf, hp, hx, -, -, hd⟩ := ((taskOk_handled hcase).mp hok).reclaim hg
      refine h.freed ⟨by simp [hst'], hf, rfl⟩ rfl hp hx ((taskOk_handled ?_).mpr hd)
      exact hcase
  | awaiting ra rb =>
      obtain ⟨hdr, ha, -, hr, -⟩ := (taskOk_awaiting hst').mp hok
      obtain ⟨hf, hp, hx, hready, hv, hd⟩ := hdr.reclaim hg
      have hawait : ∀ t : Task W D R, t.stage = (s.task k).stage → t.stage = .awaiting ra rb :=
        fun _ he => he.trans hst'
      refine h.freed ⟨by simp [hst'], hf, rfl⟩ rfl hp hx
        ((taskOk_awaiting (hawait _ ?_)).mpr ?_)
      · rfl
      exact ⟨hd, ha, rfl, nofun, fun _ => ⟨hr hg, hv, hready, congrArg (· + 1) hf⟩⟩
  | unmade | pending | popping ra | popped ra | branch ra | polling ra | freeing ra rb
  | returned ra rb | dropped =>
      rw [hst'] at hst
      cases hst

/-- What a step of the handle makes of the stage. -/
theorem handles_stage {a : Join.Action (JoinState D) D D}
    (ha : Join.Call.ofHandle .async a = true) (hr : a ≠ .reclaim) :
    ∃ st, next s (.handle k a) = s.set k { (s.task k).step a with stage := st } ∧
      (st = (s.task k).stage ∧ a ≠ .abandon ∧ a ≠ .take ∨
        a = .abandon ∧ st = (s.task k).stage.abandon ∨
        a = .take ∧ st = (s.task k).stage.take (s.task k).slot) := by
  cases a with
  | reclaim => exact absurd rfl hr
  | abandon => exact ⟨_, rfl, Or.inr (Or.inl ⟨rfl, rfl⟩)⟩
  | take => exact ⟨_, rfl, Or.inr (Or.inr ⟨rfl, rfl⟩)⟩
  | await _ | awaitForeign | load _ | loadWaker | box _ _ | exchange _ _ _ | unbox _
  | dropReplaced _ | isFinished _ => exact ⟨_, rfl, Or.inl ⟨rfl, nofun, nofun⟩⟩
  | _ => cases ha

theorem inv_handle (h : Inv s place) {a : Join.Action (JoinState D) D D}
    (hg : guard s (.handle k a)) : Inv (next s (.handle k a)) place := by
  obtain ⟨hst, ha, hga⟩ := hg
  by_cases hr : a = .reclaim
  · subst hr
    exact inv_reclaim h hst hga
  have hok := h.tasks k
  obtain ⟨st, hn, hcase⟩ := handles_stage (s := s) (k := k) ha hr
  rw [hn]
  -- A handle is used before it is awaited, or while it is.
  cases hst' : (s.task k).stage with
  | spawned | dropping =>
      have hsame : st = (s.task k).stage := by
        rw [hst'] at hcase ⊢
        rcases hcase with ⟨he, -⟩ | ⟨-, he⟩ | ⟨-, he⟩ <;> exact he
      have hdone : (s.task k).stage = .spawned ∨ (s.task k).stage = .dropping := by simp [hst']
      refine h.record (by simp [hst']) (by simp [hsame, hst']) rfl rfl ?_
      refine (taskOk_handled ?_).mpr (((taskOk_handled hdone).mp hok).handle ha hga hr st)
      exact hsame ▸ hdone
  | awaiting ra rb =>
      obtain ⟨hdr, hav, hw, hrec, hgone⟩ := (taskOk_awaiting hst').mp hok
      rw [hst'] at hcase
      rcases hcase with ⟨he, h1, h2⟩ | ⟨-, he⟩ | ⟨htake, he⟩
      · obtain ⟨hw', hrec', hgone'⟩ := awaited_next ha hw hga h1 h2 hr
        refine h.record (by simp [hst']) (by simp [he]) rfl rfl ((taskOk_awaiting he).mpr ?_)
        exact ⟨hdr.handle ha hga hr st, hav, hw', fun hh => hrec (hrec' hh),
          fun hh => hgone (hgone' hh)⟩
      · refine h.record (by simp [hst']) (by simp [he, Stage.abandon]) rfl rfl ?_
        exact (taskOk_handled (Or.inr he)).mpr (hdr.handle ha hga hr st)
      · -- The slot has what the task has written.
        subst htake
        have hslot := (hdr.slot (written_of_take hdr.join (Or.inl hga))).2
        refine h.record (by simp [hst']) (by simp [he, Stage.take]) rfl rfl
          ((taskOk_awaiting he).mpr ?_)
        exact ⟨hdr.handle ha hga hr st, hav, rfl, fun _ => hslot, nofun⟩
  | unmade | pending | popping ra | popped ra | branch ra | polling ra | freeing ra rb
  | returned ra rb | dropped =>
      rw [hst'] at hst
      cases hst

omit [DecidableEq K] [DecidableEq W] [DecidableEq Q] in
/-- A step that a worker takes with the token of the task. -/
theorem Inv.driven (h : Inv s place) {y : Spot K W Q} (hd : d ∈ s.tokens y)
    (hb : s.body d = some k) : Uses (s.task k) d ∧ place d = some y ∧
      TaskOk (s.task k) (some y) (s.wake d) ∧ Driven (s.task k) (some y) (s.wake d) := by
  obtain ⟨hu, hp, hok⟩ := h.made hd hb
  exact ⟨hu, hp, hok, hok.token hu.1 hu.2.1⟩

theorem inv_begin (h : Inv s place) (hg : guard s (.begin w d k)) :
    ∃ place', Inv (next s (.begin w d k)) place' := by
  obtain ⟨hd, hb⟩ := hg
  obtain ⟨hu, hp, hok, hdr⟩ := h.driven hd hb
  obtain ⟨hpc, hundone, hin, -⟩ := hdr.fit.waiting hu.2.1 rfl
  have hguard : Join.guard (words D) (s.task k).join .begin := hpc
  refine ⟨_, h.keep hu rfl rfl rfl (h.placed.move hd (by simp)) hu ?_⟩
  refine hok.drive rfl hu.2.1 rfl rfl rfl (by rw [hpc]; rfl) hu.1 fun _ => ?_
  refine ⟨Join.inv_next hdr.join hguard, hdr.kind, hdr.frees, ?_, fun hw => ?_⟩
  · exact ⟨⟨hundone.frees, hundone.ready⟩, by simp, w, rfl, by rw [hin]⟩
  · have hex := (hdr.slot hw).1
    rw [hpc] at hex
    cases hex

omit [DecidableEq K] [DecidableEq W] [DecidableEq Q] in
/-- The polls of a task whose worker is in the poll of its future. -/
theorem Driven.running {t : Task W D R} {x : WakeState}
    (h : Driven t (some (Spot.driven w : Spot K W Q)) x) (hpc : t.join.task = .running) :
    Undone t ∧ x ≠ .parked ∧ t.inside = [some w] ∧ t.join.written ≠ true := by
  have hf := h.fit
  rw [hpc] at hf
  obtain ⟨hu, hx, w', hw, hin⟩ := hf
  cases hw
  refine ⟨hu, hx, hin, fun hwr => ?_⟩
  have hex := (h.slot hwr).1
  rw [hpc] at hex
  cases hex

theorem inv_pending (h : Inv s place) (hg : guard s (.pending w d k)) :
    Inv (next s (.pending w d k)) place := by
  obtain ⟨⟨hd, hb⟩, hguard⟩ := hg
  obtain ⟨hu, hp, hok, hdr⟩ := h.driven hd hb
  obtain ⟨hundone, hx, hin, hw⟩ := hdr.running hguard.1
  refine h.record hu.1 hu.1 rfl rfl ?_
  rw [hu.2.2, hp]
  refine hok.drive rfl hu.2.1 rfl rfl rfl (by rw [hguard.1]; rfl) hu.1 fun _ => ?_
  refine ⟨Join.inv_next hdr.join hguard, hdr.kind, hdr.frees, ?_, fun hwr => absurd hwr hw⟩
  refine ⟨⟨hundone.frees, hundone.ready⟩, hx, ?_, w, rfl⟩
  simp only [hin, List.erase_cons_head]

omit [DecidableEq K] [DecidableEq W] [DecidableEq Q] in
/-- A task that has returned from a poll and is not yet parked. -/
theorem Driven.parking {t : Task W D R} {x : WakeState}
    (h : Driven t (some (Spot.driven w : Spot K W Q)) x)
    (hpc : t.join.task = .dropWaker false ∨ t.join.task = .park) :
    Undone t ∧ x ≠ .parked ∧ t.inside = [] ∧ t.join.written ≠ true := by
  have hf := h.fit
  have hw : t.join.written ≠ true := by
    intro hwr
    have hex := (h.slot hwr).1
    rcases hpc with hpc | hpc <;> rw [hpc] at hex <;> cases hex
  rcases hpc with hpc | hpc <;> rw [hpc] at hf <;> exact ⟨hf.1, hf.2.1, hf.2.2.1, hw⟩

theorem inv_dropWaker (h : Inv s place) (hg : guard s (.dropWaker w d k)) :
    Inv (next s (.dropWaker w d k)) place := by
  obtain ⟨⟨hd, hb⟩, hguard⟩ := hg
  obtain ⟨hu, hp, hok, hdr⟩ := h.driven hd hb
  obtain ⟨hundone, hx, hin, hw⟩ := hdr.parking (Or.inl hguard)
  refine h.record hu.1 hu.1 rfl rfl ?_
  rw [hu.2.2, hp]
  refine hok.drive rfl hu.2.1 rfl rfl rfl ?_ hu.1 fun _ => ?_
  · rw [show (s.task k).join.task = _ from hguard]
    rfl
  refine ⟨Join.inv_next hdr.join hguard, hdr.kind, hdr.frees, ?_, fun hwr => absurd hwr hw⟩
  exact ⟨⟨hundone.frees, hundone.ready⟩, hx, hin, w, rfl⟩

theorem inv_park (h : Inv s place) (hg : guard s (.park w d k)) :
    ∃ place', Inv (next s (.park w d k)) place' := by
  obtain ⟨⟨hd, hb⟩, hguard⟩ := hg
  obtain ⟨hu, hp, hok, hdr⟩ := h.driven hd hb
  obtain ⟨hundone, hx, hin, hw⟩ := hdr.parking (Or.inr hguard)
  have hex : (s.task k).join.task.exiting = false := by
    rw [show (s.task k).join.task = _ from hguard]
    rfl
  -- It is idle from now on, with the token or without it.
  have hidle : ∀ (p' : Option (Spot K W Q)) x', Waits p' x' →
      Driven ((s.task k).step .park) p' x' := fun p' x' hwait =>
    ⟨Join.inv_next hdr.join hguard, hdr.kind, hdr.frees,
      ⟨⟨hundone.frees, hundone.ready⟩, hin, hwait⟩, fun hwr => absurd hwr hw⟩
  simp only [next]
  split
  · refine ⟨_, h.keep hu rfl rfl rfl (h.placed.move hd (by simp)) hu ?_⟩
    refine hok.drive rfl hu.2.1 rfl rfl rfl hex hu.1 fun _ => ?_
    exact hidle _ _ (Or.inr ⟨by simp, _, rfl, rfl⟩)
  · refine ⟨_, h.keep hu rfl rfl rfl (h.placed.take hd) hu ?_⟩
    refine hok.drive rfl hu.2.1 rfl rfl rfl hex hu.1 fun _ => ?_
    exact hidle _ _ (Or.inl ⟨rfl, rfl⟩)

theorem inv_complete (h : Inv s place) {rb : R} (hg : guard s (.complete w d k rb)) :
    ∃ place', Inv (next s (.complete w d k rb)) place' := by
  obtain ⟨⟨hd, hb⟩, hguard⟩ := hg
  obtain ⟨hu, hp, hok, hdr⟩ := h.driven hd hb
  have hpc : (s.task k).join.task = .running := hguard
  obtain ⟨hundone, hx, hin, hw⟩ := hdr.running hpc
  refine ⟨_, h.keep hu rfl rfl rfl (h.placed.take hd) hu ?_⟩
  refine hok.drive rfl hu.2.1 rfl rfl rfl (by rw [hpc]; rfl) hu.1 fun _ => ?_
  refine ⟨Join.inv_next hdr.join hguard, hdr.kind, hdr.frees, ?_, fun hwr => absurd hwr hw⟩
  refine (fit_exiting Join.exiting_complete).mpr ⟨?_, ?_, by simp, fun _ => ⟨rfl, by simp⟩⟩
  · simp only [hin, List.erase_cons_head]
  · simp only [hundone.ready]

omit [DecidableEq K] [DecidableEq W] [DecidableEq Q] in
/-- What the task does when it is through. -/
theorem Driven.exits {t : Task W D R} {p : Option (Spot K W Q)} {x : WakeState}
    (h : Driven t p x) {a : Join.Action (JoinState D) D D} (ha : exits a = true)
    (hg : Join.guard (words D) t.join a) (hf : ∀ r, a ≠ .free r) {o : Option R}
    (ho : o = t.bVal ∨ o = t.slot ∧ ∀ y, a ≠ .write y) :
    Driven { t.step a with slot := o } p x := by
  have hthrough := h.fit.through (exiting_of_exits ha hg)
  refine ⟨Join.inv_next h.join hg, Join.Call.kind_next.trans h.kind,
    h.frees.trans (by rw [← frees_exit ha hf]; rfl), ?_, fun hwr => ⟨exiting_exit ha hg, ?_⟩⟩
  · exact (fit_exiting (exiting_exit ha hg)).mpr
      ⟨hthrough.inside, hthrough.ready, hthrough.value, hthrough.quiet⟩
  · rcases ho with ho | ⟨ho, hw⟩
    · exact ho
    · refine ho.trans (h.slot ?_).2
      rw [← written_task (ofTask_of_exits ha) hw]
      exact hwr

theorem inv_exit (h : Inv s place) {a : Join.Action (JoinState D) D D}
    (hg : guard s (.exit k a)) : Inv (next s (.exit k a)) place := by
  obtain ⟨ha, hga⟩ := hg
  have hok := h.tasks k
  have hex := exiting_of_exits ha hga
  have hm : (s.task k).stage ≠ .unmade := by
    intro hst
    unfold TaskOk at hok
    rw [hst] at hok
    rw [hok.1] at hex
    cases hex
  -- A task that exits is neither polled by its caller nor gone.
  have hnot : ∀ p : Option (Spot K W Q),
      ¬ ((s.task k).join.task = .idle ∧ (p = none ∨ (s.task k).frees = 1)) := by
    rintro p ⟨hidle, -⟩
    rw [hidle] at hex
    cases hex
  -- The last step of an exit frees the descriptor; the others do not.
  by_cases hf : ∃ r, a = .free r
  · obtain ⟨r, rfl⟩ := hf
    rcases hok.driven hm with hdr | hb | hgone
    · have hfree := frees_of_free hdr.join hga
      have hf0 : (s.task k).frees = 0 := by rw [hdr.frees, hfree]; rfl
      have hthrough := hdr.fit.through hex
      obtain ⟨hp, hx⟩ := hthrough.quiet hf0
      refine h.freed ⟨hm, hf0, rfl⟩ rfl hp hx ?_
      refine hok.step (hnot _) rfl rfl (handle_exit ha) (fun _ => ⟨rfl, rfl⟩)
        (fun h1 => absurd (hf0.symm.trans h1) (by simp)) hm fun _ => ?_
      refine ⟨Join.inv_next hdr.join hga, Join.Call.kind_next.trans hdr.kind, ?_, ?_, fun hwr => ?_⟩
      · change (s.task k).frees + 1 = (Join.next (words D) (s.task k).join (.free r)).frees.length
        rw [frees_free, hdr.frees]
        rfl
      · exact (fit_exiting (exiting_exit ha hga)).mpr
          ⟨hthrough.inside, hthrough.ready, hthrough.value, fun hn => nomatch hn⟩
      · refine ⟨exiting_exit ha hga, (hdr.slot ?_).2⟩
        rw [← written_task (ofTask_of_exits ha) (fun y => nofun)]
        exact hwr
    · exact absurd ⟨hb.task, Or.inl rfl⟩ (hnot none)
    · exact absurd ⟨hgone.task, Or.inl rfl⟩ (hnot none)
  · have hnf : ∀ r, a ≠ .free r := fun r he => hf ⟨r, he⟩
    have hrecord : ∀ o : Option R,
        o = (s.task k).bVal ∨ o = (s.task k).slot ∧ (∀ y, a ≠ .write y) →
        Inv (s.set k { (s.task k).step a with slot := o }) place := fun o ho =>
      h.record hm hm rfl rfl (hok.step (hnot _) rfl rfl (handle_exit ha) (fun _ => ⟨rfl, rfl⟩) id hm
        fun hdr => hdr.exits ha hga hnf ho)
    cases a with
    | free r => exact absurd rfl (hnf r)
    | write y => exact hrecord _ (Or.inl rfl)
    | swap | wake b | claim b | dropResult r | dropWaker r => exact hrecord _ (Or.inr ⟨rfl, nofun⟩)
    | _ => cases ha

/-- A wake of a waker of this task or of an earlier one. -/
theorem inv_wake (h : Inv s place) : ∃ place', Inv (next s (.wake d)) place' := by
  -- A wake during a poll leaves a note for the poll's end.
  have hnotify : s.wake d = .polling → Inv (s.mark d .notified) place := by
    intro hw
    refine ⟨h.placed, h.body, fun d' hb => ⟨(h.empty d' hb).1, ?_⟩, fun k => ?_⟩ <;>
      simp only [State.mark]
    · by_cases hd : d' = d
      · rw [hd, Function.update_self]
        simp
      · rw [Function.update_of_ne hd]
        exact (h.empty d' hb).2
    · by_cases hd : (s.task k).desc = d
      · have hok := h.tasks k
        rw [hd, hw] at hok
        rw [hd, Function.update_self]
        exact hok.notify (by simp) (by simp)
      · rw [Function.update_of_ne hd]
        exact h.tasks k
  simp only [next]
  -- Only a parked task gets a token again.
  cases hw : s.wake d with
  | notified | idle => exact ⟨place, h⟩
  | polling => exact ⟨place, hnotify hw⟩
  | parked =>
      cases hb : s.body d with
      | none => exact absurd hw (h.empty d hb).2
      | some k =>
          have hu := (h.body d k).mp hb
          have hok := h.tasks k
          rw [hu.2.2, hw] at hok
          rcases hok.driven hu.1 with hdr | hbr | hgone
          · -- It is parked, so there is no token yet.
            obtain ⟨hpc, hp, hundone, hin⟩ := hdr.fit.parked hu.2.1
            refine ⟨_, h.keep (t := s.task k) hu ?_ rfl rfl (h.placed.put hp .woken) hu ?_⟩
            · exact (Function.update_eq_self ..).symm
            refine hok.replace (fun hd => hd.fits ?_) fun hb' => absurd rfl hb'.unparked
            rw [hpc]
            exact ⟨hundone, hin, Or.inr ⟨by simp, _, rfl, rfl⟩⟩
          · exact absurd rfl hbr.unparked
          · exact absurd (hu.2.1.symm.trans hgone.frees) (by simp)

theorem inv_next {a : Action K W Q D R} (h : Inv s place) (hg : guard s a) :
    ∃ place', Inv (next s a) place' := by
  cases a with
  | spawn q k d root => exact inv_build h hg.1 hg.2 (Or.inl rfl)
  | call q k d => exact inv_build h hg.1 hg.2 (Or.inr ⟨rfl, rfl⟩)
  | aReady k ra => exact ⟨place, inv_aReady h hg⟩
  | drop k => exact ⟨place, inv_drop h hg⟩
  | pop q k ra o => exact inv_pop h hg
  | decide q k ra d => exact inv_decide h hg
  | pollBranch k ra => exact ⟨place, inv_pollBranch h hg⟩
  | branchPending k ra => exact ⟨place, inv_branchPending h hg⟩
  | branchReady k ra rb => exact ⟨place, inv_branchReady h hg⟩
  | freeBranch k ra rb => exact ⟨place, inv_freeBranch h hg⟩
  | handle k a => exact ⟨place, inv_handle h hg⟩
  | leave k ra rb => exact ⟨place, inv_leave h hg⟩
  | dispatch w q d => exact ⟨_, h.shift hg rfl rfl (by simp)⟩
  | transfer w d => exact ⟨_, h.shift hg rfl rfl (by simp)⟩
  | push q d => exact ⟨_, h.shift hg rfl rfl (by simp)⟩
  | begin w d k => exact inv_begin h hg
  | pending w d k => exact ⟨place, inv_pending h hg⟩
  | dropWaker w d k => exact ⟨place, inv_dropWaker h hg⟩
  | park w d k => exact inv_park h hg
  | complete w d k rb => exact inv_complete h hg
  | exit k a => exact ⟨place, inv_exit h hg⟩
  | wake d => exact inv_wake h

omit [DecidableEq K] [DecidableEq W] [DecidableEq Q] in
theorem inv_init (h : init s) : Inv s fun _ => none := by
  obtain ⟨htasks, hdescs, htokens⟩ := h
  refine ⟨⟨fun y d => ?_, fun y => ?_⟩, fun d k => ?_, fun d _ => ⟨rfl, ?_⟩, fun k => ?_⟩
  · rw [htokens y]
    exact iff_of_false List.not_mem_nil (by simp)
  · rw [htokens y]
    exact List.nodup_nil
  · rw [(hdescs d).1]
    exact iff_of_false (by simp) fun hu => hu.1 (htasks k).1
  · rw [(hdescs d).2]
    simp
  · obtain ⟨hst, hrest⟩ := htasks k
    unfold TaskOk
    rw [hst]
    exact hrest

theorem inv_reachable (hr : system.Reachable s) : ∃ place, Inv s place := by
  refine hr.induct (P := fun s => ∃ place, Inv s place) (fun s hi => ⟨_, inv_init hi⟩) ?_
  intro s a ⟨place, h⟩ hg
  exact inv_next h hg

end Steps

section Once

variable [DecidableEq D] {t : Task W D R} {p : Option (Spot K W Q)} {x : WakeState}

/-- The future is in the hands of at most one party, and only until it is ready
    and freed. -/
structure Once (t : Task W D R) : Prop where
  inside : t.inside.length ≤ 1
  ready : t.ready ≤ 1
  frees : t.frees ≤ 1
  polled : t.inside ≠ [] → t.ready = 0 ∧ t.frees = 0

theorem Driven.once (h : Driven t p x) : Once t := by
  have hle : t.frees ≤ 1 := by rw [h.frees]; exact frees_le h.join
  have hfit := h.fit
  -- The future is ready once the task exits, and never before.
  cases he : t.join.task.exiting with
  | true =>
      have ht := hfit.through he
      exact ⟨by rw [ht.inside]; exact Nat.zero_le 1, Nat.le_of_eq ht.ready, hle,
        fun hn => absurd ht.inside hn⟩
  | false =>
      have hu := hfit.undone he
      refine ⟨?_, by rw [hu.ready]; exact Nat.zero_le 1, hle, fun _ => ⟨hu.ready, hu.frees⟩⟩
      cases hpc : t.join.task with
      | idle =>
          rw [hpc] at hfit
          rw [hfit.2.1]
          exact Nat.zero_le 1
      | running =>
          rw [hpc] at hfit
          obtain ⟨-, -, w, -, hin⟩ := hfit
          rw [hin]
          exact Nat.le_refl 1
      | park =>
          rw [hpc] at hfit
          rw [hfit.2.2.1]
          exact Nat.zero_le 1
      | dropWaker r =>
          rw [hpc] at hfit he
          cases r with
          | true => cases he
          | false =>
              rw [hfit.2.2.1]
              exact Nat.zero_le 1
      | handoff | abandoned | write j | commit j | swap | resume j | wake b | claim j
      | dropResult r | free r | done r | doubleExit =>
          rw [hpc] at he
          cases he

omit [DecidableEq D] in
theorem Gone.once (h : Gone t) (hr : t.ready ≤ 1) : Once t :=
  ⟨by rw [h.inside]; exact Nat.zero_le 1, hr, Nat.le_of_eq h.frees, fun hn => absurd h.inside hn⟩

theorem TaskOk.once (h : TaskOk t p x) : Once t := by
  unfold TaskOk at h
  -- Whoever has the future at a stage, token or caller, polls it alone.
  cases hst : t.stage with
  | unmade =>
      rw [hst] at h
      obtain ⟨-, hin, hr, hf⟩ := h
      exact ⟨by rw [hin]; exact Nat.zero_le 1, by rw [hr]; exact Nat.zero_le 1,
        by rw [hf]; exact Nat.zero_le 1, fun hn => absurd hin hn⟩
  | spawned | dropping =>
      rw [hst] at h
      exact h.once
  | pending | awaiting ra rb =>
      rw [hst] at h
      exact h.1.once
  | popping ra | popped ra =>
      rw [hst] at h
      exact h.1.1.once
  | branch ra =>
      rw [hst] at h
      obtain ⟨hb, -, hin, hr⟩ := h
      exact ⟨by rw [hin]; exact Nat.zero_le 1, by rw [hr]; exact Nat.zero_le 1,
        by rw [hb.frees]; exact Nat.zero_le 1, fun _ => ⟨hr, hb.frees⟩⟩
  | polling ra =>
      rw [hst] at h
      obtain ⟨hb, -, hin, hr⟩ := h
      exact ⟨by rw [hin]; exact Nat.le_refl 1, by rw [hr]; exact Nat.zero_le 1,
        by rw [hb.frees]; exact Nat.zero_le 1, fun _ => ⟨hr, hb.frees⟩⟩
  | freeing ra rb =>
      rw [hst] at h
      obtain ⟨hb, -, hin, hr, -⟩ := h
      exact ⟨by rw [hin]; exact Nat.zero_le 1, Nat.le_of_eq hr,
        by rw [hb.frees]; exact Nat.zero_le 1, fun hn => absurd hin hn⟩
  | returned ra rb =>
      rw [hst] at h
      rcases h.1 with hd | hg
      · exact hd.once
      · exact hg.once (Nat.le_of_eq h.2.2.2.2.1)
  | dropped =>
      rw [hst] at h
      rcases h with hd | hg
      · exact hd.1.once
      · exact hg.1.once (by rw [hg.2]; exact Nat.zero_le 1)

end Once

section Main

variable [DecidableEq K] [DecidableEq W] [DecidableEq Q] [DecidableEq D]
variable {s : State K W Q D R} {k : K}

/-- The call has popped its own `b` and not yet returned from it. -/
def Stage.takesOver : Stage R → Bool
  | .branch _ | .polling _ | .freeing .. => true
  | .unmade | .spawned | .pending | .popping _ | .popped _ | .awaiting .. | .returned ..
  | .dropping | .dropped => false

/-- In every reachable state the future of a task is inside at most one poll, by
    a worker or by the caller, and is not polled when it was ready or freed; it
    is ready at most once and freed at most once. A popped token that is `b`'s
    is the only way to it: nobody polls it, there is no other token, and it is
    not parked, whether it was polled before or not. From then on there is no
    token at all, and no wake makes one. A call that has returned has driven `b`
    to its end once, has freed it once, and returns what `a` and `b` have
    produced. -/
theorem driven_once (hr : system.Reachable s) :
    Once (s.task k) ∧
      (∀ ra, (s.task k).stage = .popped ra → (s.task k).desc ∈ s.tokens (.held k) →
        (s.task k).inside = [] ∧ (s.task k).ready = 0 ∧ (s.task k).frees = 0 ∧
          s.wake (s.task k).desc ≠ .parked ∧
          ∀ y, (s.task k).desc ∈ s.tokens y → y = .held k) ∧
      ((s.task k).stage.takesOver = true →
        (∀ y, (s.task k).desc ∉ s.tokens y) ∧ s.wake (s.task k).desc ≠ .parked ∧
          s.body (s.task k).desc = some k) ∧
      ∀ ra rb, (s.task k).stage = .returned ra rb →
        (s.task k).ready = 1 ∧ (s.task k).frees = 1 ∧ (s.task k).aVal = some ra ∧
          rb = (s.task k).bVal ∧ rb ≠ none := by
  obtain ⟨place, h⟩ := inv_reachable hr
  have hok := h.tasks k
  refine ⟨hok.once, ?_, ?_, ?_⟩
  · -- The token that was popped is the task's own, so no worker polls it.
    intro ra hst hd
    have hm : (s.task k).stage ≠ .unmade := by simp [hst]
    unfold TaskOk at hok
    rw [hst] at hok
    obtain ⟨⟨hdr, hh⟩, -⟩ := hok
    have hf := hdr.unfreed hh
    have hp := h.placed.mem.mp hd
    rw [hp] at hdr
    obtain ⟨-, hu, hin, hx⟩ := hdr.fit.waiting hf rfl
    refine ⟨hin, hu.ready, hf, hx, fun y hy => ?_⟩
    exact Option.some.inj ((h.placed.mem.mp hy).symm.trans hp)
  · -- The caller polls only once it has the future to itself.
    intro hst
    have hm : (s.task k).stage ≠ .unmade := by
      intro hm
      rw [hm] at hst
      cases hst
    have hb : Branched (s.task k) (place (s.task k).desc) (s.wake (s.task k).desc) := by
      unfold TaskOk at hok
      cases hst' : (s.task k).stage with
      | branch ra | polling ra | freeing ra rb =>
          rw [hst'] at hok
          exact hok.1
      | unmade | spawned | pending | popping ra | popped ra | awaiting ra rb | returned ra rb
      | dropping | dropped =>
          rw [hst'] at hst
          cases hst
    refine ⟨fun y hy => ?_, hb.unparked, (h.body _ _).mpr (hb.uses hm)⟩
    exact nomatch (h.placed.mem.mp hy).symm.trans hb.gone
  · intro ra rb hst
    unfold TaskOk at hok
    rw [hst] at hok
    obtain ⟨-, ha, hrb, hv, hready, hfrees⟩ := hok
    exact ⟨hready, hfrees, ha, hrb, by rw [hrb]; exact hv⟩

/-- Nothing has been spawned. -/
def start : State ℕ ℕ ℕ ℕ ℕ where
  task _ := ⟨0, .unmade, made ℕ false, none, none, none, [], 0, 0⟩
  body _ := none
  wake _ := .idle
  tokens _ := []

theorem init_start : init start :=
  ⟨fun _ => ⟨rfl, rfl, rfl, rfl, rfl⟩, fun _ => ⟨rfl, rfl⟩, fun _ => rfl⟩

/-- While `a` is pending, `b` is driven, parks, is woken and requeued; the
    caller pops it and polls it itself, under late wakes. -/
def requeued : List (Action ℕ ℕ ℕ ℕ ℕ) :=
  [.call 0 7 1, .dispatch 0 0 1, .begin 0 1 7, .pending 0 1 7, .dropWaker 0 1 7, .park 0 1 7,
    .wake 1, .push 0 1, .wake 1, .aReady 7 3, .pop 0 7 3 (some 1), .decide 0 7 3 1,
    .pollBranch 7 3, .branchPending 7 3, .wake 1, .pollBranch 7 3, .branchReady 7 3 4,
    .freeBranch 7 3 4]

theorem driven_once_requeued :
    ((system.run start requeued).task 7).ready = 1 ∧
      ((system.run start requeued).task 7).frees = 1 ∧
      ((system.run start requeued).task 7).aVal = some 3 ∧
      some 4 = ((system.run start requeued).task 7).bVal ∧ some 4 ≠ (none : Option ℕ) :=
  (driven_once (k := 7) (system.reachable_run requeued start init_start (by decide +kernel))).2.2.2
    3 (some 4) (by decide +kernel)

end Main

end Stackless

end Fork

end Cmpth

import Mathlib.Data.List.Nodup
import Cmpth.Core.Update
import Cmpth.Scoped.Async

/-!
# Branches of Async Calls

What a step does to one call. The entry of a call is in one spot at a time, and
its branch is at one stage, so nobody takes a branch that was taken. As long as
the entry is somewhere it has a reference, and the strong count is that plus the
one of the call's own future.

## Main definitions

* `Spot`: Where the entry of a call is.
* `Stage`: How far its branch has come.
* `Branch`, `Call`: What every step keeps of a call.
* `Inv`: What every step keeps of all of them.

## Theorems

* `Spot.not_late`, `Spot.not_stolen`, `Spot.ne_none`: What a spot is not.
* `Branch.congr`, `Branch.driven_le`, `First.congr`: What the storage holds.
* `call_new`, `inv_init`: A new call, and none.
* `spot_moved`: Who has the entry of `i` has nothing to do with the spot that it leaves or goes to.
* `calls_set`, `unborn_set`, `hand_set`, `inv_set`: A step that moves no other entry.
* `Call.live`, `Call.unstaged`, `PollPc.waits_of_stage`: What a call tells of its poll.
* `AsyncTask.release_of`: The last reference frees the branch.
* `Call.setPc`, `Call.finishA`, `Call.register`, `Call.finish`: The polls.
* `Call.leak`, `Call.move`, `Call.shift`, `Call.reclaim`, `Call.taken`, `Call.gaveUp`,
  `Call.dropped`: The entry and the references.
* `Call.driveOwn`, `Call.drive`: The branch.
-/

namespace Cmpth

namespace Scoped

namespace Async

/-- Where the entry of a call is. -/
inductive Spot (I W E : Type*) where
  /-- Not made yet. -/
  | none
  | pushing
  | queue (w : W)
  /-- With the poll of `j`, which has popped it and is to push it back. -/
  | hand (j : I)
  /-- Popped by the call's own poll. -/
  | reclaiming
  /-- Reclaimed by the call's own poll. -/
  | own
  | thief (e : E)
  /-- Given up by the thief. -/
  | ended

/-- How far the branch has come. -/
inductive Stage (V : Type*) where
  | before
  | taking
  | driving
  | storing (rb : V)
  | setting
  /-- The latch is set. -/
  | done
  /-- The branch has panicked. -/
  | broken

/-- The entry still has to be taken. -/
def Spot.early {I W E : Type*} : Spot I W E → Bool
  | .none | .pushing | .queue _ | .hand _ | .reclaiming => true
  | .own | .thief _ | .ended => false

/-- The entry has a reference of the `Arc`. -/
def Spot.refers {I W E : Type*} : Spot I W E → Bool
  | .pushing | .queue _ | .hand _ | .reclaiming | .thief _ => true
  | .none | .own | .ended => false

theorem Spot.not_late {I W E : Type*} {p : Spot I W E} (hp : p.early = true) {q : Prop} :
    ¬ (p = .ended ∨ p = .own ∧ q) := by
  rintro (rfl | ⟨rfl, -⟩) <;> cases hp

theorem Spot.not_stolen {I W E : Type*} {p : Spot I W E} (hp : p.early = true) :
    ¬ ((∃ e, p = .thief e) ∨ p = .ended) := by
  rintro (⟨e, rfl⟩ | rfl) <;> cases hp

theorem Spot.ne_none {I W E : Type*} {p : Spot I W E} (hp : p.refers = true) : p ≠ .none := by
  rintro rfl
  cases hp

variable {I W E V : Type*}

/-- The stage of a branch that is driven in place. -/
def PollPc.stage : PollPc I W V → Option (Stage V)
  | .taking => some .taking
  | .driving => some .driving
  | .storing rb => some (.storing rb)
  | .setting => some .setting
  | _ => Option.none

/-- The poll is past the end of `a`. -/
def PollPc.waits : PollPc I W V → Prop
  | .none | .start _ | .pushing _ | .entered _ | .running _ => False
  | _ => True

/-- The entry that a thief has. -/
def DrivePc.entry : DrivePc I V → Option I
  | .none => Option.none
  | .taking i | .driving i | .storing i _ | .setting i | .dropping i => some i

/-- How far the thief has come with the branch. -/
def DrivePc.stage : DrivePc I V → Option (Stage V)
  | .none | .dropping _ => Option.none
  | .taking _ => some .taking
  | .driving _ => some .driving
  | .storing _ rb => some (.storing rb)
  | .setting _ => some .setting

/-- What the storage of a branch holds at a stage. -/
def Branch (c : ParallelInvoke I W V) : Stage V → Prop
  | .before | .taking =>
      c.task.body = .pending ∧ c.task.result = none ∧ c.task.latch ≠ .done ∧ c.driven = 0 ∧
        c.readyB = 0
  | .driving | .broken =>
      c.task.body = .taken ∧ c.task.result = none ∧ c.task.latch ≠ .done ∧ c.driven = 1 ∧
        c.readyB = 0
  | .storing rb =>
      c.task.body = .taken ∧ c.task.latch ≠ .done ∧ c.driven = 1 ∧ c.readyB = 1 ∧
        c.retB = some rb
  | .setting =>
      c.task.body = .taken ∧ c.task.result = c.retB ∧ c.retB ≠ none ∧ c.task.latch ≠ .done ∧
        c.driven = 1 ∧ c.readyB = 1
  | .done =>
      c.task.body = .taken ∧ c.retB ≠ none ∧ c.task.latch = .done ∧ c.driven = 1 ∧
        c.readyB = 1 ∧ (c.state ≠ .done → c.task.result = c.retB)

/-- What the state of a call says of the first branch. -/
def First (c : ParallelInvoke I W V) : InvokeState V → Prop
  | .runningA => c.readyA = 0
  | .waitingB ra => c.readyA = 1 ∧ c.retA = some ra
  | .done => c.readyA = 1 ∧ c.output ≠ none

/-- What every step keeps of a call, whose entry is at `p` and whose branch is
    at `g`. -/
structure Call (c : ParallelInvoke I W V) (p : Spot I W E) (g : Stage V) : Prop where
  branch : Branch c g
  first : First c c.state
  pushed : c.pushed = false ↔ p = .none
  pushing : (∃ w, c.pc = .pushing w) ↔ p = .pushing
  reclaiming : c.pc = .reclaiming ↔ p = .reclaiming
  stage : ∀ st, c.pc.stage = some st → p = .own ∧ g = st
  early : p.early = true → g = .before
  late : (p = .ended ∨ p = .own ∧ c.pc.stage = none) → g = .done ∨ g = .broken
  strong : c.task.strong = (if c.life = .live then 1 else 0) + if p.refers = true then 1 else 0
  freed : c.task.freed = if c.life = .live ∨ p.refers = true then 0 else 1
  reclaimed : c.reclaimed = if p.early = true then 0 else 1
  stolen : c.stolen = true ↔ (∃ e, p = .thief e) ∨ p = .ended
  gone : c.life ≠ .live → c.pc = .none
  running : (∃ w, c.pc = .running w) → c.state = .runningA
  waits : c.pc.waits → (∃ ra, c.state = .waitingB ra) ∧ p ≠ .none
  entered : (∃ w, c.pc = .running w ∨ c.pc = .entered w) → p ≠ .none
  latched : c.pc = .finishing ∨ c.pc = .registering .done → g = .done
  output : ∀ ra rb, c.output = some (ra, rb) →
    c.state = .done ∧ c.retA = some ra ∧ c.retB = some rb ∧ g = .done

section

variable [DecidableEq I]

/-- What every step keeps. -/
structure Inv (s : State I W E V) (p : I → Spot I W E) (g : I → Stage V) : Prop where
  call : ∀ i, (s.invoke i).life ≠ .unborn → Call (s.invoke i) (p i) (g i)
  unborn : ∀ i, (s.invoke i).life = .unborn →
    (s.invoke i).pc = .none ∧ p i = .none ∧ (s.invoke i).stolen = false
  nodup : ∀ w, (s.queue w).Nodup
  queue : ∀ w i, i ∈ s.queue w ↔ p i = .queue w
  hand : ∀ i j, (∃ w, (s.invoke j).pc = .pushBack w i) ↔ p i = .hand j
  foreign : ∀ i, p i ≠ .hand i
  thief : ∀ e i, (s.thief e).entry = some i ↔ p i = .thief e
  drive : ∀ e i st, (s.thief e).entry = some i → (s.thief e).stage = some st → g i = st
  dropping : ∀ e i, (s.thief e).entry = some i → (s.thief e).stage = none →
    g i = .done ∨ g i = .broken

section

variable {c c' : ParallelInvoke I W V} {g : Stage V}

omit [DecidableEq I] in
theorem Branch.congr (h : Branch c g) (hbody : c'.task.body = c.task.body)
    (hresult : c'.task.result = c.task.result) (hlatch : c'.task.latch = c.task.latch)
    (hdriven : c'.driven = c.driven) (hreadyB : c'.readyB = c.readyB) (hretB : c'.retB = c.retB)
    (hstate : c'.state = c.state) : Branch c' g := by
  cases g
  all_goals simpa only [Branch, hbody, hresult, hlatch, hdriven, hreadyB, hretB, hstate] using h

omit [DecidableEq I] in
theorem Branch.driven_le (h : Branch c g) : c.driven ≤ 1 := by
  cases g with
  | before | taking => exact Nat.le_succ_of_le (Nat.le_of_eq h.2.2.2.1)
  | driving | broken | done => exact Nat.le_of_eq h.2.2.2.1
  | storing rb => exact Nat.le_of_eq h.2.2.1
  | setting => exact Nat.le_of_eq h.2.2.2.2.1

omit [DecidableEq I] in
theorem First.congr {st : InvokeState V} (h : First c st) (hreadyA : c'.readyA = c.readyA)
    (hretA : c'.retA = c.retA) (houtput : c'.output = c.output) : First c' st := by
  cases st
  all_goals simpa only [First, hreadyA, hretA, houtput] using h

end

variable {s : State I W E V} {p : I → Spot I W E} {g : I → Stage V}

omit [DecidableEq I] in
theorem inv_init (h : init s) : Inv s (fun _ => .none) (fun _ => .before) := by
  rcases h with ⟨hinvoke, hqueue, hthief⟩
  constructor
  · exact fun i hi => absurd (hinvoke i).1 hi
  · exact fun i _ => ⟨(hinvoke i).2.1, rfl, (hinvoke i).2.2.2⟩
  all_goals simp [hqueue, hthief, hinvoke, DrivePc.entry]

/-- Who has the entry of `i` has nothing to do with the spot that it leaves or goes to. -/
theorem spot_moved {q r : Spot I W E} {A : I → Prop} (h : ∀ j, A j ↔ p j = q) {i : I}
    (hold : p i ≠ q) (hnew : r ≠ q) (j : I) : A j ↔ Function.update p i r j = q :=
  forall_update (P := fun j (pj : Spot I W E) => A j ↔ pj = q) h
    ((h i).trans (iff_of_false hold hnew)) j

/-- One call has changed, with its spot and its stage. -/
theorem calls_set (h : Inv s p g) {i : I} {c : ParallelInvoke I W V} {pi : Spot I W E}
    {gi : Stage V} (hcall : Call c pi gi) :
    ∀ j, (Function.update s.invoke i c j).life ≠ .unborn →
      Call (Function.update s.invoke i c j) (Function.update p i pi j)
        (Function.update g i gi j) := by
  refine forall_update_of_ne (P := fun j (c : ParallelInvoke I W V) => c.life ≠ .unborn →
    Call c (Function.update p i pi j) (Function.update g i gi j)) (fun j hj hborn => ?_) ?_
  · rw [Function.update_of_ne hj, Function.update_of_ne hj]
    exact h.call j hborn
  · rw [Function.update_self, Function.update_self]
    exact fun _ => hcall

theorem unborn_set (h : Inv s p g) {i : I} {c : ParallelInvoke I W V} {x : Spot I W E}
    (hlife : c.life ≠ .unborn) :
    ∀ j, (Function.update s.invoke i c j).life = .unborn →
      (Function.update s.invoke i c j).pc = .none ∧ Function.update p i x j = .none ∧
        (Function.update s.invoke i c j).stolen = false := by
  refine forall_update_of_ne (P := fun j (c : ParallelInvoke I W V) => c.life = .unborn →
    c.pc = .none ∧ Function.update p i x j = .none ∧ c.stolen = false) (fun j hj hborn => ?_)
    fun hborn => absurd hborn hlife
  rw [Function.update_of_ne hj]
  exact h.unborn j hborn

/-- A poll that holds no other entry. -/
theorem hand_set {i : I} {c : ParallelInvoke I W V}
    (hback : ∀ w x, c.pc ≠ .pushBack w x ∧ (s.invoke i).pc ≠ .pushBack w x) (x : I) :
    ∀ k, (∃ w, (Function.update s.invoke i c k).pc = .pushBack w x) ↔
      ∃ w, (s.invoke k).pc = .pushBack w x :=
  forall_update (P := fun k (c : ParallelInvoke I W V) => (∃ w, c.pc = .pushBack w x) ↔
    ∃ w, (s.invoke k).pc = .pushBack w x) (fun _ => Iff.rfl)
    (iff_of_false (fun ⟨w, hw⟩ => (hback w x).1 hw) fun ⟨w, hw⟩ => (hback w x).2 hw)

/-- A poll's operation that has to do with no queue and no other entry. -/
theorem inv_set (h : Inv s p g) {i : I} {c : ParallelInvoke I W V} {pi : Spot I W E}
    {gi : Stage V} (hlife : c.life ≠ .unborn) (hcall : Call c pi gi)
    (hback : ∀ w x, c.pc ≠ .pushBack w x ∧ (s.invoke i).pc ≠ .pushBack w x)
    (hspot : pi = p i ∨ (∀ w, pi ≠ .queue w ∧ p i ≠ .queue w) ∧
      (∀ j, pi ≠ .hand j ∧ p i ≠ .hand j) ∧ ∀ e, pi ≠ .thief e ∧ p i ≠ .thief e)
    (hthief : ∀ e, p i = .thief e → gi = g i) :
    Inv (s.set i c) (Function.update p i pi) (Function.update g i gi) := by
  -- The entry's spot is as before, or it was and is in no queue, no hand and with no thief.
  have hqueue : ∀ w, p i = .queue w ↔ pi = .queue w := by
    intro w
    rcases hspot with rfl | ⟨hs, -⟩
    · exact Iff.rfl
    · exact iff_of_false (hs w).2 (hs w).1
  have hhand : ∀ j, p i = .hand j ↔ pi = .hand j := by
    intro j
    rcases hspot with rfl | ⟨-, hs, -⟩
    · exact Iff.rfl
    · exact iff_of_false (hs j).2 (hs j).1
  have hsteal : ∀ e, p i = .thief e ↔ pi = .thief e := by
    intro e
    rcases hspot with rfl | ⟨-, -, hs⟩
    · exact Iff.rfl
    · exact iff_of_false (hs e).2 (hs e).1
  refine { h with
    call := calls_set h hcall, unborn := unborn_set h hlife, queue := fun w => ?_, hand := ?_,
    foreign := ?_, thief := fun e => ?_, drive := fun e => ?_, dropping := fun e => ?_ }
  · exact forall_update (P := fun j (pj : Spot I W E) => j ∈ s.queue w ↔ pj = .queue w)
      (h.queue w) ((h.queue w i).trans (hqueue w))
  · intro x k
    rw [show (s.set i c).invoke = Function.update s.invoke i c from rfl, hand_set hback x k]
    exact forall_update (P := fun x (px : Spot I W E) =>
      (∃ w, (s.invoke k).pc = .pushBack w x) ↔ px = .hand k) (fun x => h.hand x k)
      ((h.hand i k).trans (hhand k)) x
  · exact forall_update (P := fun j (pj : Spot I W E) => pj ≠ .hand j) h.foreign
      fun hi => h.foreign i ((hhand i).mpr hi)
  · exact forall_update (P := fun j (pj : Spot I W E) => (s.thief e).entry = some j ↔
      pj = .thief e) (h.thief e) ((h.thief e i).trans (hsteal e))
  · refine forall_update (P := fun j (gj : Stage V) => ∀ st, (s.thief e).entry = some j →
      (s.thief e).stage = some st → gj = st) (h.drive e) fun st hi hst => ?_
    rw [hthief e ((h.thief e i).mp hi)]
    exact h.drive e i st hi hst
  · refine forall_update (P := fun j (gj : Stage V) => (s.thief e).entry = some j →
      (s.thief e).stage = none → gj = .done ∨ gj = .broken) (h.dropping e) fun hi hst => ?_
    rw [hthief e ((h.thief e i).mp hi)]
    exact h.dropping e i hi hst

omit [DecidableEq I] in
theorem call_new : Call (.new : ParallelInvoke I W V) (.none : Spot I W E) .before := by
  constructor
  all_goals
    simp [ParallelInvoke.new, Branch, First, PollPc.stage, PollPc.waits, Spot.early, Spot.refers]

section

variable {c : ParallelInvoke I W V} {pi : Spot I W E} {gi : Stage V}

omit [DecidableEq I] in
theorem Call.live (h : Call c pi gi) (hpc : c.pc ≠ .none) : c.life = .live := by
  by_contra hne
  exact hpc (h.gone hne)

omit [DecidableEq I] in
/-- A branch that is not driven in place has no stage in its own poll. -/
theorem Call.unstaged (h : Call c pi gi) (hpi : pi ≠ .own) : c.pc.stage = none := by
  cases hst : c.pc.stage with
  | none => rfl
  | some st => exact absurd (h.stage st hst).1 hpi

omit [DecidableEq I] in
theorem PollPc.waits_of_stage {pc : PollPc I W V} (hpc : pc.stage ≠ Option.none) : pc.waits := by
  cases pc with
  | none | start w | pushing w | entered w | running w => exact absurd rfl hpc
  | popping w | pushBack w x | reclaiming | taking | driving | storing rb | setting | loading
  | registering cur | finishing => trivial

/-- The last reference frees the branch. -/
theorem AsyncTask.release_of {t : AsyncTask V} {q : Prop} [Decidable q]
    (hstrong : t.strong = (if q then 1 else 0) + 1) (hfreed : t.freed = 0) :
    t.release.strong = (if q then 1 else 0) ∧ t.release.freed = if q then 0 else 1 := by
  by_cases hq : q
  · rw [if_pos hq] at hstrong
    simp [AsyncTask.release, hstrong, hfreed, hq]
  · rw [if_neg hq] at hstrong
    simp [AsyncTask.release, hstrong, hfreed, hq]

omit [DecidableEq I] in
/-- The poll goes on, or returns, and leaves the branch alone. -/
theorem Call.setPc (h : Call c pi gi) (hlife : c.life = .live) {pc : PollPc I W V}
    (hold : c.pc.stage = none ∧ (∀ w, c.pc ≠ .pushing w) ∧ c.pc ≠ .reclaiming)
    (hnew : pc.stage = none ∧ (∀ w, pc ≠ .pushing w) ∧ pc ≠ .reclaiming)
    (hrun : (∃ w, pc = .running w) → c.state = .runningA)
    (hwaits : pc.waits → (∃ ra, c.state = .waitingB ra) ∧ pi ≠ .none)
    (hentered : (∃ w, pc = .running w ∨ pc = .entered w) → pi ≠ .none)
    (hlatched : pc = .finishing ∨ pc = .registering .done → gi = .done) :
    Call { c with pc := pc } pi gi := by
  refine { h with
    branch := h.branch.congr rfl rfl rfl rfl rfl rfl rfl, first := h.first.congr rfl rfl rfl,
    pushing := ?_, reclaiming := ?_, stage := ?_, late := ?_,
    gone := fun hne => absurd hlife hne, running := hrun, waits := hwaits, entered := hentered,
    latched := hlatched }
  · -- Neither the old place nor the new one is of the entry's own.
    refine iff_of_false (fun ⟨w, hw⟩ => hnew.2.1 w hw) fun hp => ?_
    obtain ⟨w, hw⟩ := h.pushing.mpr hp
    exact hold.2.1 w hw
  · exact iff_of_false hnew.2.2 fun hp => hold.2.2 (h.reclaiming.mpr hp)
  · exact fun st hst => nomatch hnew.1.symm.trans hst
  · exact fun hp => h.late (hp.imp_right fun hp => ⟨hp.1, hold.1⟩)

omit [DecidableEq I] in
/-- `as_task_ref` leaks a reference. -/
theorem Call.leak (h : Call c pi gi) {w : W} (hpc : c.pc = .start w) (hpushed : c.pushed ≠ true) :
    Call
      { c with
        pushed := true
        pc := .pushing w
        task := { c.task with strong := c.task.strong + 1 } } (.pushing : Spot I W E) gi := by
  have hlife : c.life = .live := h.live (by rw [hpc]; nofun)
  have hpi : pi = .none := h.pushed.mp (Bool.eq_false_iff.mpr hpushed)
  subst hpi
  have hstrong : c.task.strong = 1 := by
    rw [h.strong, if_pos hlife]
    rfl
  refine { h with
    branch := h.branch.congr rfl rfl rfl rfl rfl rfl rfl, first := h.first.congr rfl rfl rfl,
    pushed := iff_of_false nofun nofun, pushing := iff_of_true ⟨w, rfl⟩ rfl,
    reclaiming := iff_of_false nofun nofun, stage := nofun, early := fun _ => h.early rfl,
    late := fun hp => absurd hp (Spot.not_late rfl), strong := ?_, freed := ?_,
    stolen := iff_of_false (fun hs => Spot.not_stolen rfl (h.stolen.mp hs)) (Spot.not_stolen rfl),
    gone := fun hne => absurd hlife hne, running := nofun, waits := fun hw => hw.elim,
    entered := nofun, latched := nofun }
  -- The future's reference, and the one that is leaked.
  · rw [hstrong, if_pos hlife]
    rfl
  · rw [h.freed, if_pos (.inl hlife), if_pos (.inl hlife)]

omit [DecidableEq I] in
/-- The entry is moved, and keeps its reference. -/
theorem Call.move (h : Call c pi gi) {pc : PollPc I W V} {pi' : Spot I W E}
    (hpc : (∃ w, pc = .pushing w) ↔ pi' = .pushing) (hpc' : pc = .reclaiming ↔ pi' = .reclaiming)
    (hstage : c.pc.stage = none ∧ pc.stage = none)
    (hpi : pi.early = true ∧ pi.refers = true) (hpi' : pi'.early = true ∧ pi'.refers = true)
    (hgone : c.life ≠ .live → pc = .none)
    (hrun : (∃ w, pc = .running w) → c.state = .runningA)
    (hwaits : pc.waits → ∃ ra, c.state = .waitingB ra)
    (hlatched : pc = .finishing ∨ pc = .registering .done → gi = .done) :
    Call { c with pc := pc } pi' gi := by
  have hne := Spot.ne_none hpi.2
  have hne' := Spot.ne_none hpi'.2
  refine { h with
    branch := h.branch.congr rfl rfl rfl rfl rfl rfl rfl, first := h.first.congr rfl rfl rfl,
    pushed := h.pushed.trans (iff_of_false hne hne'), pushing := hpc, reclaiming := hpc',
    stage := fun st hst => (nomatch hstage.2.symm.trans hst), early := fun _ => h.early hpi.1,
    late := fun hp => absurd hp (Spot.not_late hpi'.1), strong := ?_, freed := ?_,
    reclaimed := ?_,
    stolen := h.stolen.trans (iff_of_false (Spot.not_stolen hpi.1) (Spot.not_stolen hpi'.1)),
    gone := hgone, running := hrun, waits := fun hw => ⟨hwaits hw, hne'⟩,
    entered := fun _ => hne', latched := hlatched }
  · -- The counts only ask whether the entry refers to the shared state.
    rw [h.strong, hpi.2, hpi'.2]
  · rw [h.freed, hpi.2, hpi'.2]
  · rw [h.reclaimed, hpi.1, hpi'.1]

omit [DecidableEq I] in
/-- The entry goes from a queue to another call's hand, or back. -/
theorem Call.shift (h : Call c pi gi) {pi' : Spot I W E}
    (hpi : (∃ w, pi = .queue w) ∨ ∃ j, pi = .hand j)
    (hpi' : (∃ w, pi' = .queue w) ∨ ∃ j, pi' = .hand j) : Call c pi' gi := by
  have hcounts : ∀ {q : Spot I W E}, ((∃ w, q = .queue w) ∨ ∃ j, q = .hand j) →
      (q.early = true ∧ q.refers = true) ∧ q ≠ .own ∧ q ≠ .pushing ∧ q ≠ .reclaiming := by
    rintro q (⟨w, rfl⟩ | ⟨j, rfl⟩)
    · exact ⟨⟨rfl, rfl⟩, nofun, nofun, nofun⟩
    · exact ⟨⟨rfl, rfl⟩, nofun, nofun, nofun⟩
  obtain ⟨hold, hown, hpush, hreclaim⟩ := hcounts hpi
  obtain ⟨hnew, -, hpush', hreclaim'⟩ := hcounts hpi'
  have hstage := h.unstaged hown
  exact h.move (h.pushing.trans (iff_of_false hpush hpush'))
    (h.reclaiming.trans (iff_of_false hreclaim hreclaim')) ⟨hstage, hstage⟩ hold hnew h.gone
    h.running (fun hw => (h.waits hw).1) h.latched

omit [DecidableEq I] in
/-- The entry is reclaimed by its own call, which has another reference. -/
theorem Call.reclaim (h : Call c pi gi) (hpc : c.pc = .reclaiming) :
    Call
      { c with
        pc := .taking
        task := c.task.release
        reclaimed := c.reclaimed + 1 } (.own : Spot I W E) .taking := by
  have hlife : c.life = .live := h.live (by rw [hpc]; nofun)
  have hpi : pi = .reclaiming := h.reclaiming.mp hpc
  have hgi : gi = .before := h.early (by rw [hpi]; rfl)
  subst hpi hgi
  have hwaits := h.waits (by rw [hpc]; trivial)
  -- The own future keeps the branch alive.
  obtain ⟨hstrong, hfreed⟩ := AsyncTask.release_of h.strong (by rw [h.freed, if_pos (.inl hlife)])
  refine { h with
    branch := h.branch, first := h.first.congr rfl rfl rfl,
    pushed := h.pushed.trans (iff_of_false nofun nofun), pushing := iff_of_false nofun nofun,
    reclaiming := iff_of_false nofun nofun, stage := ?_, early := nofun, late := ?_,
    strong := hstrong, freed := ?_, reclaimed := congrArg (· + 1) h.reclaimed,
    stolen := h.stolen.trans (iff_of_false (Spot.not_stolen rfl) ?_),
    gone := fun hne => absurd hlife hne, running := nofun, waits := fun _ => ⟨hwaits.1, nofun⟩,
    entered := nofun, latched := nofun, output := ?_ }
  · rintro st ⟨⟩
    exact ⟨rfl, rfl⟩
  · rintro (⟨⟨⟩⟩ | ⟨-, ⟨⟩⟩)
  · rw [hfreed, if_pos hlife, if_pos (.inl hlife)]
  · rintro (⟨e, ⟨⟩⟩ | ⟨⟨⟩⟩)
  · exact fun ra rb ho => nomatch (h.output ra rb ho).2.2.2

omit [DecidableEq I] in
/-- A step of the branch, driven in place. -/
theorem Call.driveOwn (h : Call c pi gi) (pc : PollPc I W V) {task : AsyncTask V}
    {retB : Option V} {readyB driven : ℕ} (gi' : Stage V) (hold : c.pc.stage ≠ none)
    (hbranch : Branch { c with
      pc := pc, task := task, retB := retB, readyB := readyB, driven := driven } gi')
    (hstage : pc.stage = some gi' ∨
      pc.stage = none ∧ (pc = .none ∧ gi' = .broken ∨ pc = .finishing ∧ gi' = .done))
    (htask : task.strong = c.task.strong ∧ task.freed = c.task.freed) :
    Call { c with pc := pc, task := task, retB := retB, readyB := readyB, driven := driven }
      pi gi' := by
  obtain ⟨st, hst⟩ := Option.ne_none_iff_exists'.mp hold
  obtain ⟨rfl, rfl⟩ := h.stage st hst
  have hwaits := h.waits (PollPc.waits_of_stage hold)
  have hlive : c.life = .live := h.live fun hn => hold (by rw [hn]; rfl)
  -- From its drive a poll goes on driving, panics or finishes.
  have hspot : ∀ pc' : PollPc I W V, pc'.stage = none → pc' ≠ .none → pc' ≠ .finishing →
      pc ≠ pc' := by
    rintro pc' hpc' hne hnf rfl
    rcases hstage with hs | ⟨-, ⟨hn, -⟩ | ⟨hf, -⟩⟩
    · cases hs.symm.trans hpc'
    · exact hne hn
    · exact hnf hf
  refine { h with
    branch := hbranch, first := h.first.congr rfl rfl rfl,
    pushing := iff_of_false (fun ⟨w, hw⟩ => hspot (.pushing w) rfl nofun nofun hw) nofun,
    reclaiming := iff_of_false (hspot .reclaiming rfl nofun nofun) nofun, stage := ?_,
    early := nofun, late := ?_, strong := htask.1.trans h.strong, freed := htask.2.trans h.freed,
    gone := fun hne => absurd hlive hne,
    running := fun ⟨w, hw⟩ => absurd hw (hspot (.running w) rfl nofun nofun),
    waits := fun _ => hwaits, entered := fun _ => nofun, latched := ?_, output := ?_ }
  · -- Whatever the poll drives next is what the branch has come to.
    intro st' hst'
    rcases hstage with hs | ⟨hn, -⟩
    · exact ⟨rfl, Option.some.inj (hs.symm.trans hst')⟩
    · cases hn.symm.trans hst'
  · rintro (⟨⟨⟩⟩ | ⟨-, hn⟩)
    rcases hstage with hs | ⟨-, ⟨-, hg⟩ | ⟨-, hg⟩⟩
    · cases hs.symm.trans hn
    · exact .inr hg
    · exact .inl hg
  · rintro (hf | hr)
    · rcases hstage with hs | ⟨-, ⟨hn, -⟩ | ⟨-, hg⟩⟩
      · rw [show pc = _ from hf] at hs
        cases hs
      · cases hn.symm.trans hf
      · exact hg
    · exact absurd hr (hspot (.registering .done) rfl nofun nofun)
  · -- A call that has returned is not driving.
    intro ra rb ho
    obtain ⟨ra', hra⟩ := hwaits.1
    cases (h.output ra rb ho).1.symm.trans hra

omit [DecidableEq I] in
/-- The first branch is done. -/
theorem Call.finishA (h : Call c pi gi) {w : W} {ra : V} (hpc : c.pc = .running w) :
    Call
      { c with
        pc := .popping w
        state := .waitingB ra
        retA := some ra
        readyA := c.readyA + 1 } pi gi := by
  -- The poll is inside `a`, so `b` is pushed and nothing of the call is done.
  have hstate : c.state = .runningA := h.running ⟨w, hpc⟩
  have hpi : pi ≠ .none := h.entered ⟨w, Or.inl hpc⟩
  have hready : c.readyA = 0 := by
    have hfirst := h.first
    rw [hstate] at hfirst
    exact hfirst
  refine { h with
    branch := ?_, first := ⟨congrArg (· + 1) hready, rfl⟩, pushing := ?_, reclaiming := ?_,
    stage := nofun, late := ?_, gone := fun hne => absurd (h.live (by rw [hpc]; nofun)) hne,
    running := nofun, waits := fun _ => ⟨⟨ra, rfl⟩, hpi⟩, entered := nofun, latched := nofun,
    output := ?_ }
  · have hbranch := h.branch
    cases gi with
    | done =>
        obtain ⟨hbody, hret, hlatch, hdriven, hreadyB, hresult⟩ := hbranch
        exact ⟨hbody, hret, hlatch, hdriven, hreadyB, fun _ => hresult (by rw [hstate]; nofun)⟩
    | before | taking | driving | storing rb | setting | broken => exact hbranch
  · refine iff_of_false nofun fun hp => ?_
    obtain ⟨w', hw'⟩ := h.pushing.mpr hp
    cases hpc.symm.trans hw'
  · exact iff_of_false nofun fun hp => nomatch hpc.symm.trans (h.reclaiming.mpr hp)
  · exact fun hp => h.late (hp.imp_right fun hp => ⟨hp.1, by rw [hpc]; rfl⟩)
  · intro ra' rb ho
    cases hstate.symm.trans (h.output ra' rb ho).1

omit [DecidableEq I] in
/-- The waker is left in the latch. -/
theorem Call.register (h : Call c pi gi) {cur : AsyncLatch} (hpc : c.pc = .registering cur)
    (hlatch : c.task.latch ≠ .done) :
    Call
      { c with
        pc := .none
        task := { c.task with latch := .waker c.registered }
        registered := c.registered + 1 } pi gi := by
  refine { h with
    branch := ?_, first := h.first.congr rfl rfl rfl, pushing := ?_, reclaiming := ?_,
    stage := nofun, late := ?_, gone := fun _ => rfl, running := nofun, waits := fun hw => hw.elim,
    entered := nofun, latched := nofun }
  · -- The latch is not set: the thief has not come to the end of its branch.
    have hbranch := h.branch
    cases gi with
    | done => exact absurd hbranch.2.2.1 hlatch
    | before | taking | driving | broken =>
        obtain ⟨hbody, hresult, -, hdriven, hready⟩ := hbranch
        exact ⟨hbody, hresult, nofun, hdriven, hready⟩
    | storing rb =>
        obtain ⟨hbody, -, hdriven, hready, hret⟩ := hbranch
        exact ⟨hbody, nofun, hdriven, hready, hret⟩
    | setting =>
        obtain ⟨hbody, hresult, hret, -, hdriven, hready⟩ := hbranch
        exact ⟨hbody, hresult, hret, nofun, hdriven, hready⟩
  · refine iff_of_false nofun fun hp => ?_
    obtain ⟨w, hw⟩ := h.pushing.mpr hp
    cases hpc.symm.trans hw
  · exact iff_of_false nofun fun hp => nomatch hpc.symm.trans (h.reclaiming.mpr hp)
  · exact fun hp => h.late (hp.imp_right fun hp => ⟨hp.1, by rw [hpc]; rfl⟩)

omit [DecidableEq I] in
/-- The call has both results. -/
theorem Call.finish (h : Call c pi gi) (hpc : c.pc = .finishing) :
    ∃ ra rb, c.task.result = some rb ∧ c.state = .waitingB ra ∧
      Call
        { c with
          pc := .none
          task := { c.task with result := none }
          state := .done
          output := some (ra, rb) } pi gi := by
  -- The latch is set, so that the branch has left its result.
  have hgi : gi = .done := h.latched (Or.inl hpc)
  subst hgi
  obtain ⟨ra, hra⟩ := (h.waits (by rw [hpc]; trivial)).1
  obtain ⟨hbody, hret, hlatch, hdriven, hready, hresult⟩ := h.branch
  have hfirst := h.first
  rw [hra] at hfirst
  obtain ⟨rb, hrb⟩ := Option.ne_none_iff_exists'.mp hret
  refine ⟨ra, rb, (hresult (by rw [hra]; nofun)).trans hrb, hra, ?_⟩
  refine { h with
    branch := ⟨hbody, hret, hlatch, hdriven, hready, fun hne => absurd rfl hne⟩,
    first := ⟨hfirst.1, nofun⟩, pushing := ?_, reclaiming := ?_, stage := nofun,
    late := fun _ => .inl rfl, gone := fun _ => rfl, running := nofun,
    waits := fun hw => hw.elim, entered := nofun, latched := nofun, output := ?_ }
  · refine iff_of_false nofun fun hp => ?_
    obtain ⟨w, hw⟩ := h.pushing.mpr hp
    cases hpc.symm.trans hw
  · exact iff_of_false nofun fun hp => nomatch hpc.symm.trans (h.reclaiming.mpr hp)
  · rintro ra' rb' ⟨⟩
    exact ⟨rfl, hfirst.2, hrb, rfl⟩

omit [DecidableEq I] in
/-- The future is dropped. -/
theorem Call.dropped (h : Call c pi gi) (hlife : c.life = .live) (hpc : c.pc = .none) :
    Call { c with life := .gone, task := c.task.release } pi gi := by
  -- What is left is the reference of the entry, if it has one.
  have hstrong : c.task.strong = (if pi.refers = true then 1 else 0) + 1 := by
    rw [h.strong, if_pos hlife, Nat.add_comm]
  obtain ⟨hstrong, hfreed⟩ := AsyncTask.release_of hstrong (by rw [h.freed, if_pos (.inl hlife)])
  refine { h with
    branch := h.branch.congr rfl rfl rfl rfl rfl rfl rfl, first := h.first.congr rfl rfl rfl,
    strong := ?_, freed := ?_, gone := fun _ => hpc }
  · simp only [hstrong, reduceCtorEq, if_false, Nat.zero_add]
  · rw [hfreed]
    simp only [reduceCtorEq, false_or]

omit [DecidableEq I] in
/-- A thief has taken the entry and makes it a reference again. -/
theorem Call.taken (h : Call c pi gi) {w : W} (hpi : pi = .queue w) (e : E) :
    Call { c with reclaimed := c.reclaimed + 1, stolen := true } (.thief e : Spot I W E)
      .taking := by
  have hgi : gi = .before := h.early (by rw [hpi]; rfl)
  subst hpi hgi
  refine { h with
    branch := h.branch, first := h.first.congr rfl rfl rfl,
    pushed := h.pushed.trans (iff_of_false nofun nofun),
    pushing := h.pushing.trans (iff_of_false nofun nofun),
    reclaiming := h.reclaiming.trans (iff_of_false nofun nofun),
    stage := fun st hst => (nomatch (h.stage st hst).1), early := nofun, late := ?_,
    reclaimed := congrArg (· + 1) h.reclaimed, stolen := iff_of_true rfl (.inl ⟨e, rfl⟩),
    waits := fun hw => ⟨(h.waits hw).1, nofun⟩, entered := fun _ => nofun, latched := ?_,
    output := ?_ }
  · rintro (⟨⟨⟩⟩ | ⟨⟨⟩, -⟩)
  · exact fun hl => nomatch h.latched hl
  · exact fun ra rb ho => nomatch (h.output ra rb ho).2.2.2

omit [DecidableEq I] in
/-- A step of the branch, driven by a thief. -/
theorem Call.drive (h : Call c pi gi) {e : E} {task : AsyncTask V} {retB : Option V}
    {readyB driven : ℕ} (gi' : Stage V) (hpi : pi = .thief e) (hgi : gi ≠ .done)
    (hbranch : Branch { c with task := task, retB := retB, readyB := readyB, driven := driven } gi')
    (htask : task.strong = c.task.strong ∧ task.freed = c.task.freed) :
    Call { c with task := task, retB := retB, readyB := readyB, driven := driven } pi gi' := by
  subst hpi
  refine { h with
    branch := hbranch, first := h.first.congr rfl rfl rfl,
    stage := fun st hst => (nomatch (h.stage st hst).1), early := nofun, late := ?_,
    strong := htask.1.trans h.strong, freed := htask.2.trans h.freed,
    latched := fun hl => absurd (h.latched hl) hgi,
    output := fun ra rb ho => absurd (h.output ra rb ho).2.2.2 hgi }
  rintro (⟨⟨⟩⟩ | ⟨⟨⟩, -⟩)

omit [DecidableEq I] in
/-- A thief drops its reference. -/
theorem Call.gaveUp (h : Call c pi gi) {e : E} (hpi : pi = .thief e)
    (hgi : gi = .done ∨ gi = .broken) :
    Call { c with task := c.task.release } (.ended : Spot I W E) gi := by
  subst hpi
  obtain ⟨hstrong, hfreed⟩ := AsyncTask.release_of h.strong (by rw [h.freed, if_pos (.inr rfl)])
  refine { h with
    branch := h.branch.congr rfl rfl rfl rfl rfl rfl rfl, first := h.first.congr rfl rfl rfl,
    pushed := h.pushed.trans (iff_of_false nofun nofun),
    pushing := h.pushing.trans (iff_of_false nofun nofun),
    reclaiming := h.reclaiming.trans (iff_of_false nofun nofun),
    stage := fun st hst => (nomatch (h.stage st hst).1), early := nofun, late := fun _ => hgi,
    strong := hstrong, freed := ?_,
    stolen := h.stolen.trans (iff_of_true (.inl ⟨e, rfl⟩) (.inr rfl)),
    waits := fun hw => ⟨(h.waits hw).1, nofun⟩, entered := fun _ => nofun }
  rw [hfreed]
  -- The last one out frees it: the thief, unless the call is still there.
  by_cases hlife : c.life = .live
  · rw [if_pos hlife, if_pos (.inl hlife)]
  · rw [if_neg hlife, if_neg]
    rintro (hl | ⟨⟨⟩⟩)
    exact hlife hl

end

end

end Async

end Scoped

end Cmpth

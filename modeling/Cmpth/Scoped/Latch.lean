import Cmpth.Scoped.Frames

/-!
# Latches of Stolen Branches

A `parallel_call` whose task is gone from its queue waits for the task's latch,
and only the worker that executes the task sets it. So for every call in
progress whose task it has not got back, somebody has a reference to the task,
or the latch is set.

A panic in the stolen branch is the one thing that breaks this. It leaves
`execute_trampoline` by the frame's unwinding, and the statement that sets the
latch is not reached. Panics elsewhere do no harm here: what they unwind are
calls, which wait no longer.

Nothing is assumed about frames that are gone and task references that outlive
them, so the argument does not use the invariant of `Scoped.Frames`.

## Main definitions

* `Worker.holds`: The task references a worker has, one it is about to push back
  included.
* `Worker.awaits`: The tasks its calls have not got back.
* `Waited`: Every task that is awaited is held, or its latch is set.
* `BranchReturns`: The step unwinds no execution a call waits for.

## Theorems

* `Frame.owns_of_awaits`, `Worker.owns_of_awaits`: What is awaited is owned.
* `waits_started`, `Waits.congr`: The beginning, and what the invariant is about.
* `Waits.update`: What a step has to keep.
* `Waits.go`: A step on the worker's own stack.
* `Waits.others`: A call is left, and no other has its task.
* `Waits.modify`: Closures and results may be written at any time, and latches set.
* `Waits.leave_go`: The frame of a call is left.
* `waits_start`, `waits_ret`, `waits_seek`, `waits_advance`: Steps of one frame.
* `Waits.replace`: The topmost frame is replaced by one that stands for the same call and execution.
* `Waits.pop`: The topmost frame is left, and it is neither a call nor an execution.
* `Waits.finish`: The thread's outermost frame is left.
* `waits_unwindExec`: An execution is unwound that no call waits for.
* `waits_unwind`: Unwinding, but for an execution that a call waits for.
* `waits_pop`: A `parallel_call` takes what is on top of its queue: its own task, which it then does
  not wait for, or another, which it has in hand.
* `waits_run`: A task that is taken from the own queue is executed.
* `waits_setLatch`: The thief is done with the task when its latch is set.
* `waits_call`: A new task is on its caller's queue.
* `waits_steal`: A thief executes what it has taken from another queue.
* `waits_next`: A step that unwinds no execution a call waits for keeps it.
-/

namespace Cmpth

namespace Scoped

variable {W A V : Type*}

/-- The call has not got its task back. -/
def Frame.awaits : Frame W A V → Option A
  | .call t _ | .pop t _ _ | .pushBack t _ _ _ | .seek (.help t _ _) _ => some t
  | _ => none

/-- The reference a frame has in hand. -/
def Frame.holds : Frame W A V → Option A
  | .exec t | .publish t _ | .setLatch t | .pushBack _ _ _ t => some t
  | _ => none

/-- The frame of a thread's outermost loop or of `run`. -/
def Frame.base : Frame W A V → Bool
  | .seek (.help ..) _ => false
  | .seek _ _ | .run _ | .init _ | .finish _ _ | .join _ _ => true
  | _ => false

/-- The task references that a worker has. -/
def Worker.holds (wk : Worker W A V) : List A :=
  wk.deque ++ wk.stack.filterMap Frame.holds

/-- The tasks that a worker's calls have not got back. -/
def Worker.awaits (wk : Worker W A V) : List A :=
  wk.stack.filterMap Frame.awaits

/-- Every task that a call waits for is queued or being executed, or its latch
    is set. -/
def Waited (s : State W A V) : Prop :=
  ∀ w t, t ∈ (s.worker w).awaits →
    (∃ w', t ∈ (s.worker w').holds) ∨ (s.task t).latch = true

/-- The frame has a task in hand to push back. -/
def Frame.back : Frame W A V → Bool
  | .pushBack .. => true
  | _ => false

/-- Nothing is below the frame of an outermost loop. -/
def Based : List (Frame W A V) → Prop
  | [] => True
  | f :: st => (f.base = true → st = []) ∧ Based st

/-- What holds of one worker. -/
structure Worker.Waits (wk : Worker W A V) : Prop where
  owns_nodup : wk.owns.Nodup
  based : Based wk.stack
  tail : ∀ f ∈ wk.stack.tail, f.back = false
  head : ∀ f ∈ wk.stack.head?, f.back = true → wk.ctl = .step

/-- What every step keeps that unwinds no execution. -/
structure Waits (s : State W A V) : Prop where
  ok : ∀ w, (s.worker w).Waits
  owns_unique : ∀ w w' t, t ∈ (s.worker w).owns → t ∈ (s.worker w').owns → w = w'
  owns_live : ∀ w t, t ∈ (s.worker w).owns → (s.task t).live = true
  waited : Waited s

theorem Frame.owns_of_awaits {f : Frame W A V} {t : A} (h : f.awaits = some t) :
    f.owns = some t := by
  cases f with
  | seek l r => cases l <;> simp_all [Frame.awaits, Frame.owns]
  | _ => simp_all [Frame.awaits, Frame.owns]

theorem Worker.owns_of_awaits {wk : Worker W A V} {t : A} (h : t ∈ wk.awaits) : t ∈ wk.owns := by
  rcases List.mem_filterMap.mp h with ⟨f, hf, ht⟩
  exact List.mem_filterMap.mpr ⟨f, hf, Frame.owns_of_awaits ht⟩

theorem waits_started {s : State W A V} {w₀ : W} {hs : List W} {p : Prog V}
    (h : Started s w₀ hs p) : Waits s := by
  -- Nobody has a frame that owns or awaits a task.
  have hnone : ∀ w, (s.worker w).owns = [] ∧ (s.worker w).Waits := by
    intro w
    by_cases hw : w = w₀
    · subst hw
      rcases h.root with hr | hr
      all_goals
        rw [hr]
        refine ⟨rfl, ⟨List.nodup_nil, ⟨fun _ => rfl, trivial⟩, by simp, ?_⟩⟩
        simp [Frame.back]
    · rw [h.idle w hw]
      refine ⟨rfl, ⟨List.nodup_nil, ⟨fun _ => rfl, trivial⟩, by simp, ?_⟩⟩
      simp [Frame.back]
  have howns : ∀ w t, t ∉ (s.worker w).owns := by
    intro w t
    rw [(hnone w).1]
    exact List.not_mem_nil
  constructor
  · exact fun w => (hnone w).2
  · exact fun w w' t ht => absurd ht (howns w t)
  · exact fun w t ht => absurd ht (howns w t)
  · exact fun w t ht => absurd (Worker.owns_of_awaits ht) (howns w t)

variable [DecidableEq W]

/-- A worker changes without a call it did not have. What it gives up is not
    awaited any more, or its latch is set. -/
theorem Waits.update {s s' : State W A V} (h : Waits s) (w : W) (wk : Worker W A V)
    (hworker : s'.worker = Function.update s.worker w wk) (hok : wk.Waits)
    (howns : wk.owns ⊆ (s.worker w).owns) (hawaits : wk.awaits ⊆ (s.worker w).awaits)
    (hholds : ∀ t ∈ (s.worker w).holds, t ∈ wk.holds ∨ (s'.task t).latch = true ∨
      (∃ w', w' ≠ w ∧ t ∈ (s.worker w').holds) ∨
      (t ∉ wk.awaits ∧ ∀ w', w' ≠ w → t ∉ (s.worker w').awaits))
    (hlive : ∀ t, (s.task t).live = true → (s'.task t).live = true ∨
      (t ∉ wk.owns ∧ ∀ w', w' ≠ w → t ∉ (s.worker w').owns))
    (hlatch : ∀ t, (s.task t).latch = true → (s'.task t).latch = true) : Waits s' := by
  -- No frame has been added anywhere.
  have owns : ∀ w', (s'.worker w').owns ⊆ (s.worker w').owns := by
    intro w'
    rcases worker_cases hworker w' with ⟨rfl, hw⟩ | ⟨-, hw⟩
    · rwa [hw]
    · rw [hw]
      exact List.Subset.refl _
  constructor
  · intro w'
    rcases worker_cases hworker w' with ⟨-, hw⟩ | ⟨-, hw⟩
    · rwa [hw]
    · rw [hw]
      exact h.ok w'
  · exact fun a b t ha hb => h.owns_unique a b t (owns a ha) (owns b hb)
  · intro w' t ht
    rcases hlive t (h.owns_live w' t (owns w' ht)) with hl | ⟨hno, hothers⟩
    · exact hl
    · rcases worker_cases hworker w' with ⟨-, hw⟩ | ⟨hne, hw⟩
      · exact absurd (hw ▸ ht) hno
      · exact absurd (hw ▸ ht) (hothers w' hne)
  · -- Whoever has held the awaited task still does, or it is `w` and has set the latch.
    intro w' t ht
    have hold : t ∈ (s.worker w').awaits := by
      rcases worker_cases hworker w' with ⟨rfl, hw⟩ | ⟨-, hw⟩
      · exact hawaits (hw ▸ ht)
      · exact hw ▸ ht
    rcases h.waited w' t hold with ⟨w'', hheld⟩ | hl
    · by_cases hww : w'' = w
      · subst hww
        rcases hholds t hheld with hkept | hl | ⟨v, hv, hheld⟩ | ⟨hno, hothers⟩
        · refine Or.inl ⟨w'', ?_⟩
          rw [hworker, Function.update_self]
          exact hkept
        · exact Or.inr hl
        · refine Or.inl ⟨v, ?_⟩
          rw [hworker, Function.update_of_ne hv]
          exact hheld
        · -- The task was given up, so no call awaits it.
          rcases worker_cases hworker w' with ⟨-, hw⟩ | ⟨hne, hw⟩
          · exact absurd (hw ▸ ht) hno
          · exact absurd (hw ▸ ht) (hothers w' hne)
      · refine Or.inl ⟨w'', ?_⟩
        rw [hworker, Function.update_of_ne hww]
        exact hheld
    · exact Or.inr (hlatch t hl)

/-- A step on the worker's own stack. -/
theorem Waits.go {s : State W A V} (h : Waits s) (w : W) {st st' : List (Frame W A V)}
    {ctl : Control V} (hst : (s.worker w).stack = st)
    (howns : (st'.filterMap Frame.owns).Sublist (st.filterMap Frame.owns))
    (hawaits : st'.filterMap Frame.awaits ⊆ st.filterMap Frame.awaits)
    (hholds : st.filterMap Frame.holds ⊆ st'.filterMap Frame.holds)
    (hbased : Based st') (htail : ∀ f ∈ st'.tail, f.back = false)
    (hhead : ∀ f ∈ st'.head?, f.back = true → ctl = .step) : Waits (s.go w st' ctl) := by
  have ho : (Worker.owns { s.worker w with stack := st', ctl := ctl }).Sublist
      (s.worker w).owns := by
    rw [Worker.owns, Worker.owns, hst]
    exact howns
  refine h.update w { s.worker w with stack := st', ctl := ctl } rfl
    ⟨(h.ok w).owns_nodup.sublist ho, hbased, htail, hhead⟩ ho.subset ?_ ?_ ?_ ?_
  · rw [Worker.awaits, Worker.awaits, hst]
    exact hawaits
  · intro t ht
    refine Or.inl ?_
    rw [Worker.holds, hst, List.mem_append] at ht
    rw [Worker.holds, List.mem_append]
    exact ht.imp_right fun hm => hholds hm
  · exact fun t ht => Or.inl ht
  · exact fun t ht => ht

omit [DecidableEq W] in
/-- A call is left, and no other has its task. -/
theorem Waits.others {s : State W A V} (h : Waits s) {w : W} {t : A}
    {f : Frame W A V} {st : List (Frame W A V)} (hst : (s.worker w).stack = f :: st)
    (hf : f.owns = some t) :
    t ∉ st.filterMap Frame.owns ∧ ∀ w', w' ≠ w → t ∉ (s.worker w').owns := by
  have howns : (s.worker w).owns = t :: st.filterMap Frame.owns := by
    simp only [Worker.owns, hst, List.filterMap_cons, hf]
  have hnd := (h.ok w).owns_nodup
  rw [howns, List.nodup_cons] at hnd
  refine ⟨hnd.1, fun w' hw' hmem => hw' ?_⟩
  exact h.owns_unique w' w t hmem (by rw [howns]; exact List.mem_cons_self)

omit [DecidableEq W] in
theorem Waits.congr {s s' : State W A V} (h : Waits s) (ht : s'.task = s.task)
    (hw : s'.worker = s.worker) : Waits s' := by
  obtain ⟨h1, h2, h3, h4⟩ := h
  constructor
  all_goals simpa only [Waited, ht, hw]

variable [DecidableEq A]

omit [DecidableEq W] in
/-- Closures and results may be written at any time, and latches set. -/
theorem Waits.modify {s : State W A V} (h : Waits s) (t : A) (f : StackTask V → StackTask V)
    (hlive : ∀ x, (f x).live = x.live) (hlatch : ∀ x, x.latch = true → (f x).latch = true) :
    Waits (s.modify t f) := by
  have hl : ∀ t', ((s.modify t f).task t').live = (s.task t').live := by
    intro t'
    by_cases ht : t' = t
    · subst ht
      simp only [State.modify, Function.update_self, hlive]
    · simp only [State.modify, Function.update_of_ne ht]
  -- A latch that is set stays so.
  have hla : ∀ t', (s.task t').latch = true → ((s.modify t f).task t').latch = true := by
    intro t' ht'
    by_cases ht : t' = t
    · subst ht
      simp only [State.modify, Function.update_self]
      exact hlatch _ ht'
    · simpa only [State.modify, Function.update_of_ne ht] using ht'
  refine ⟨h.ok, h.owns_unique, ?_, ?_⟩
  · exact fun w t' ht' => (hl t').trans (h.owns_live w t' ht')
  · intro w t' ht'
    exact (h.waited w t' ht').imp_right (hla t')

/-- The frame of a call is left. -/
theorem Waits.leave_go {s : State W A V} (h : Waits s) (w : W) {t : A} {f : Frame W A V}
    {st : List (Frame W A V)} {ctl : Control V} (hst : (s.worker w).stack = f :: st)
    (hf : f.owns = some t) (hx : f.holds = none) : Waits ((s.leave t).go w st ctl) := by
  -- No other frame, of this worker or of another, owns the task.
  rcases h.others hst hf with ⟨hself, hothers⟩
  have hok := h.ok w
  have hbased := hok.based
  have htail := hok.tail
  rw [hst] at hbased htail
  have howns : (s.worker w).owns = t :: st.filterMap Frame.owns := by
    simp only [Worker.owns, hst, List.filterMap_cons, hf]
  refine h.update w { s.worker w with stack := st, ctl := ctl } rfl ?_ ?_ ?_ ?_ ?_ ?_
  · refine ⟨?_, hbased.2, ?_, ?_⟩
    · have hnd := hok.owns_nodup
      rw [howns] at hnd
      exact hnd.of_cons
    · exact fun g hg => htail g (List.mem_of_mem_tail hg)
    · intro g hg hback
      rw [htail g (List.mem_of_head? hg)] at hback
      cases hback
  · rw [howns]
    exact List.subset_cons_self _ _
  · intro t' ht'
    rw [Worker.awaits, hst, List.filterMap_cons]
    split
    · exact ht'
    · exact List.mem_cons_of_mem _ ht'
  · intro t' ht'
    refine Or.inl ?_
    rw [Worker.holds, hst, List.filterMap_cons, hx] at ht'
    exact ht'
  · intro t' ht'
    -- The task that is left is not awaited any more.
    by_cases heq : t' = t
    · subst heq
      exact Or.inr ⟨hself, hothers⟩
    · refine Or.inl ?_
      simpa [State.leave, State.modify, State.go, heq] using ht'
  · intro t' ht'
    by_cases heq : t' = t
    · subst heq
      simpa [State.leave, State.modify, State.go] using ht'
    · simpa [State.leave, State.modify, State.go, heq] using ht'

omit [DecidableEq A] in
theorem waits_start {s : State W A V} (h : Waits s) (w : W) (p : Prog V)
    (hctl : (s.worker w).ctl ≠ .step) : Waits (start s w p (s.worker w).stack) := by
  have hok := h.ok w
  have hbased := hok.based
  have htail := hok.tail
  -- A worker that runs a closure is not about to push anything back.
  have hhead : ∀ f ∈ (s.worker w).stack, f.back = false := by
    intro f hf
    cases hst : (s.worker w).stack with
    | nil =>
        rw [hst] at hf
        cases hf
    | cons g st =>
        rw [hst] at hf htail
        rcases List.mem_cons.mp hf with rfl | hmem
        · by_contra hback
          rw [Bool.not_eq_false] at hback
          exact hctl (hok.head f (by rw [hst]; rfl) hback)
        · exact htail f hmem
  cases p with
  | parallelCall a b k => exact h
  | ret v | panic =>
      refine h.go w rfl (List.Sublist.refl _) (List.Subset.refl _) (List.Subset.refl _) hbased
        htail ?_
      intro f hf hback
      rw [hhead f (List.mem_of_head? hf)] at hback
      cases hback
  | catchUnwind p k =>
      refine h.go w rfl ?_ ?_ ?_ ⟨by simp [Frame.base], hbased⟩ hhead (by simp [Frame.back])
      · simp [List.filterMap_cons, Frame.owns]
      · simp [List.filterMap_cons, Frame.awaits]
      · simp [List.filterMap_cons, Frame.holds]

omit [DecidableEq A] in
/-- The topmost frame is replaced by one that stands for the same call and
    execution. -/
theorem Waits.replace {s : State W A V} (h : Waits s) (w : W) {f g : Frame W A V}
    {st : List (Frame W A V)} {ctl : Control V} (hst : (s.worker w).stack = f :: st)
    (howns : g.owns = f.owns) (hawaits : ∀ t, g.awaits = some t → f.awaits = some t)
    (hholds : ∀ t, f.holds = some t → g.holds = some t)
    (hbase : g.base = true → f.base = true) (hback : g.back = true → ctl = .step) :
    Waits (s.go w (g :: st) ctl) := by
  have hbased := (h.ok w).based
  have htail := (h.ok w).tail
  rw [hst] at hbased htail
  refine h.go w hst ?_ ?_ ?_ ⟨fun hg => hbased.1 (hbase hg), hbased.2⟩ htail ?_
  · simp only [List.filterMap_cons, howns]
    exact List.Sublist.refl _
  · -- What the new frame awaits or holds the one below it awaited or held.
    intro t ht
    rcases List.mem_filterMap.mp ht with ⟨f', hf', ht'⟩
    rcases List.mem_cons.mp hf' with rfl | hmem
    · exact List.mem_filterMap.mpr ⟨f, List.mem_cons_self, hawaits t ht'⟩
    · exact List.mem_filterMap.mpr ⟨f', List.mem_cons_of_mem _ hmem, ht'⟩
  · intro t ht
    rcases List.mem_filterMap.mp ht with ⟨f', hf', ht'⟩
    rcases List.mem_cons.mp hf' with rfl | hmem
    · exact List.mem_filterMap.mpr ⟨g, List.mem_cons_self, hholds t ht'⟩
    · exact List.mem_filterMap.mpr ⟨f', List.mem_cons_of_mem _ hmem, ht'⟩
  · intro f' hf'
    cases hf'
    exact hback

omit [DecidableEq A] in
/-- The topmost frame is left, and it is neither a call nor an execution. -/
theorem Waits.pop {s : State W A V} (h : Waits s) (w : W) {f : Frame W A V}
    {st : List (Frame W A V)} {ctl : Control V} (hst : (s.worker w).stack = f :: st)
    (howns : f.owns = none) (hholds : f.holds = none) : Waits (s.go w st ctl) := by
  have hbased := (h.ok w).based
  have htail := (h.ok w).tail
  rw [hst] at hbased htail
  refine h.go w hst ?_ ?_ ?_ hbased.2 (fun g hg => htail g (List.mem_of_mem_tail hg)) ?_
  · simp only [List.filterMap_cons, howns]
    exact List.Sublist.refl _
  · intro t ht
    rcases List.mem_filterMap.mp ht with ⟨f', hf', ht'⟩
    exact List.mem_filterMap.mpr ⟨f', List.mem_cons_of_mem _ hf', ht'⟩
  · simp only [List.filterMap_cons, hholds]
    exact List.Subset.refl _
  · intro g hg hback
    rw [htail g (List.mem_of_head? hg)] at hback
    cases hback

omit [DecidableEq A] in
/-- The thread's outermost frame is left. -/
theorem Waits.finish {s : State W A V} (h : Waits s) (w : W) {f : Frame W A V}
    {st : List (Frame W A V)} {ctl : Control V} (hst : (s.worker w).stack = f :: st)
    (hbase : f.base = true) (hholds : f.holds = none) : Waits (s.go w [] ctl) := by
  have hbased := (h.ok w).based
  rw [hst] at hbased
  have hnil : st = [] := hbased.1 hbase
  subst hnil
  refine h.go w hst (List.nil_sublist _) (List.nil_subset _) ?_ trivial (by simp) (by simp)
  simp only [List.filterMap_cons, hholds, List.filterMap_nil]
  exact List.Subset.refl _

theorem waits_ret {s : State W A V} (h : Waits s) (w : W) (v : V) :
    Waits (ret s w v (s.worker w).stack) := by
  unfold ret
  split
  case h_1 hst =>
    exact h.replace w hst rfl (fun _ ht => ht) (by simp [Frame.holds]) (by simp [Frame.base])
      (by simp [Frame.back])
  case h_2 hst => exact h.leave_go w hst rfl rfl
  case h_3 hst =>
    exact h.replace w hst rfl (by simp [Frame.awaits]) (fun _ ht => ht) (by simp [Frame.base])
      (by simp [Frame.back])
  case h_4 hst => exact h.pop w hst rfl rfl
  case h_5 hst | h_6 hst =>
    exact h.replace w hst rfl (by simp [Frame.awaits]) (by simp [Frame.holds]) (fun _ => rfl)
      (by simp [Frame.back])
  case h_7 => exact h

omit [DecidableEq A] in
/-- An execution is unwound that no call waits for. -/
theorem waits_unwindExec {s : State W A V} (h : Waits s) (w : W) {t : A}
    {st : List (Frame W A V)} (hst : (s.worker w).stack = .exec t :: st)
    (ht : ∀ w', t ∉ (s.worker w').awaits) : Waits (s.go w st .unwind) := by
  have hok := h.ok w
  have hbased := hok.based
  have htail := hok.tail
  have hnodup := hok.owns_nodup
  rw [hst] at hbased htail
  rw [Worker.owns, hst] at hnodup
  -- The frame that is unwound awaited nothing itself.
  have hawaits : (s.worker w).awaits = st.filterMap Frame.awaits := by
    simp [Worker.awaits, hst, List.filterMap_cons, Frame.awaits]
  refine h.update w { s.worker w with stack := st, ctl := .unwind } rfl
    ⟨?_, hbased.2, fun g hg => htail g (List.mem_of_mem_tail hg), ?_⟩ ?_ ?_ ?_
    (fun t' ht' => Or.inl ht') (fun t' ht' => ht')
  · simpa [Worker.owns, List.filterMap_cons, Frame.owns] using hnodup
  · intro g hg hback
    rw [htail g (List.mem_of_head? hg)] at hback
    cases hback
  · simp [Worker.owns, hst, List.filterMap_cons, Frame.owns]
  · rw [hawaits]
    exact List.Subset.refl _
  · intro t' ht'
    simp only [Worker.holds, hst, List.filterMap_cons, Frame.holds, List.mem_append,
      List.mem_cons] at ht' ⊢
    rcases ht' with hq | rfl | hs
    · exact Or.inl (Or.inl hq)
    · refine Or.inr (Or.inr (Or.inr ⟨fun hmem => ht w ?_, fun w' _ => ht w'⟩))
      rw [hawaits]
      exact hmem
    · exact Or.inl (Or.inr hs)

/-- Unwinding, but for an execution that a call waits for. -/
theorem waits_unwind {s : State W A V} (h : Waits s) (w : W)
    (hctl : (s.worker w).ctl = .unwind)
    (hexec : ∀ t st, (s.worker w).stack = .exec t :: st → ∀ w', t ∉ (s.worker w').awaits) :
    Waits (unwind s w (s.worker w).stack) := by
  unfold unwind
  split
  case h_1 hst | h_2 hst | h_4 hst | h_5 hst | h_6 hst => exact h.leave_go w hst rfl rfl
  case h_3 hst =>
    -- A task in hand is pushed back before anything can panic.
    have hstep := (h.ok w).head _ (by rw [hst]; rfl) rfl
    rw [hctl] at hstep
    cases hstep
  case h_7 hst => exact waits_unwindExec h w hst (hexec _ _ hst)
  case h_8 hst => exact h.pop w hst rfl rfl
  case h_9 hst =>
    exact h.replace w hst rfl (by simp [Frame.awaits]) (by simp [Frame.holds]) (fun _ => rfl)
      (by simp [Frame.back])
  case h_10 | h_11 => exact h.congr rfl rfl
  case h_12 l _ _ hhelp _ hst =>
    refine h.finish w hst ?_ rfl
    cases l with
    | help t ra k => exact (hhelp t ra k rfl).elim
    | idle | drain | initDrain => rfl
  case h_13 hst | h_14 hst => exact h.finish w hst rfl rfl
  case h_15 => exact h

/-- A `parallel_call` takes what is on top of its queue: its own task, which it
    then does not wait for, or another, which it has in hand. -/
theorem waits_pop {s : State W A V} (h : Waits s) (w : W) {t : A} {ra : V} {k : V → V → Prog V}
    {st : List (Frame W A V)} (hst : (s.worker w).stack = .pop t ra k :: st) :
    Waits (advance s w (.pop t ra k :: st)) := by
  have hok := h.ok w
  rcases h.others hst rfl with ⟨hself, hothers⟩
  have hbased := hok.based
  have htail := hok.tail
  have hnodup := hok.owns_nodup
  rw [hst] at hbased htail
  rw [Worker.owns, hst] at hnodup
  simp only [advance]
  -- An empty queue means that the task was stolen, so its thief holds it.
  cases hd : (s.worker w).deque with
  | nil =>
      exact h.replace w hst rfl (fun _ ht => ht) (by simp [Frame.holds]) (by simp [Frame.base])
        (by simp [Frame.back])
  | cons x d =>
      by_cases hx : x = t
      · subst hx
        simp only [if_true]
        refine h.update w { deque := d, stack := .inline x ra k :: st, ctl := .step }
          (by simp [State.go, State.setDeque]) ⟨?_, ⟨by simp [Frame.base], hbased.2⟩, htail, ?_⟩
          ?_ ?_ ?_ ?_ ?_
        · simpa [Worker.owns, List.filterMap_cons, Frame.owns] using hnodup
        · simp [Frame.back]
        · simp [Worker.owns, hst, Frame.owns]
        · intro t' ht'
          rw [Worker.awaits, List.filterMap_cons] at ht'
          rw [Worker.awaits, hst, List.filterMap_cons]
          exact List.mem_cons_of_mem _ ht'
        · intro t' ht'
          simp only [Worker.holds, hd, hst, List.filterMap_cons, Frame.holds, List.cons_append,
            List.mem_cons] at ht'
          rcases ht' with rfl | hmem
          · -- The call had the task, and is not waiting for it now.
            refine Or.inr (Or.inr (Or.inr ⟨?_, ?_⟩))
            · intro hmem
              rw [Worker.awaits, List.filterMap_cons] at hmem
              rcases List.mem_filterMap.mp hmem with ⟨f, hf, hft⟩
              exact hself (List.mem_filterMap.mpr ⟨f, hf, Frame.owns_of_awaits hft⟩)
            · exact fun w' hw' hmem => hothers w' hw' (Worker.owns_of_awaits hmem)
          · refine Or.inl ?_
            simpa [Worker.holds, List.filterMap_cons, Frame.holds] using hmem
        · exact fun t' ht' => Or.inl ht'
        · exact fun t' ht' => ht'
      · simp only [if_neg hx]
        refine h.update w { deque := d, stack := .pushBack t ra k x :: st, ctl := .step }
          (by simp [State.go, State.setDeque]) ⟨?_, ⟨by simp [Frame.base], hbased.2⟩, htail, ?_⟩
          ?_ ?_ ?_ ?_ ?_
        · simpa [Worker.owns, List.filterMap_cons, Frame.owns] using hnodup
        · simp
        · simp [Worker.owns, hst, Frame.owns]
        · simp [Worker.awaits, hst, Frame.awaits]
        · intro t' ht'
          refine Or.inl ?_
          simp only [Worker.holds, hd, hst, List.filterMap_cons, Frame.holds, List.cons_append,
            List.mem_cons, List.mem_append] at ht' ⊢
          tauto
        · exact fun t' ht' => Or.inl ht'
        · exact fun t' ht' => ht'

omit [DecidableEq A] in
/-- A task that is taken from the own queue is executed. -/
theorem waits_run {s : State W A V} (h : Waits s) (w : W) {l : Loop W A V} {r : Seek}
    {st : List (Frame W A V)} {d : List A} {x : A} (hst : (s.worker w).stack = .seek l r :: st)
    (hd : ∀ t ∈ (s.worker w).deque, t = x ∨ t ∈ d) :
    Waits ((s.setDeque w d).go w (.exec x :: .seek l .check :: st) .step) := by
  have hok := h.ok w
  have hbased := hok.based
  have htail := hok.tail
  have hnodup := hok.owns_nodup
  rw [hst] at hbased htail
  rw [Worker.owns, hst] at hnodup
  -- The new frame owns nothing and awaits nothing.
  have howns : (Frame.exec x :: .seek l .check :: st).filterMap Frame.owns =
      (Frame.seek l r :: st).filterMap Frame.owns := by
    cases l <;> simp [List.filterMap_cons, Frame.owns]
  have hawaits : (Frame.exec x :: .seek l .check :: st).filterMap Frame.awaits =
      (Frame.seek l r :: st).filterMap Frame.awaits := by
    cases l <;> simp [List.filterMap_cons, Frame.awaits]
  have hbase : Frame.base (.seek l .check : Frame W A V) = Frame.base (.seek l r) := by
    cases l <;> rfl
  refine h.update w { deque := d, stack := .exec x :: .seek l .check :: st, ctl := .step }
    (by simp [State.go, State.setDeque]) ⟨?_, ?_, ?_, ?_⟩ ?_ ?_ ?_ ?_ ?_
  · rw [Worker.owns, howns]
    exact hnodup
  · exact ⟨by simp [Frame.base], fun hb => hbased.1 (hbase ▸ hb), hbased.2⟩
  · intro f hf
    rcases List.mem_cons.mp hf with rfl | hmem
    · rfl
    · exact htail f hmem
  · simp [Frame.back]
  · rw [Worker.owns, Worker.owns, hst, howns]
    exact List.Subset.refl _
  · rw [Worker.awaits, Worker.awaits, hst, hawaits]
    exact List.Subset.refl _
  · intro t ht
    refine Or.inl ?_
    rw [Worker.holds, hst, List.mem_append] at ht
    simp only [Worker.holds, List.filterMap_cons, Frame.holds, List.mem_append, List.mem_cons]
    rcases ht with hq | hs
    · rcases hd t hq with rfl | hmem
      · exact Or.inr (Or.inl rfl)
      · exact Or.inl hmem
    · exact Or.inr (Or.inr (by simpa [List.filterMap_cons, Frame.holds] using hs))
  · exact fun t ht => Or.inl ht
  · exact fun t ht => ht

/-- The thief is done with the task when its latch is set. -/
theorem waits_setLatch {s : State W A V} (h : Waits s) (w : W) {t : A}
    {st : List (Frame W A V)} (hst : (s.worker w).stack = .setLatch t :: st) :
    Waits (advance s w (.setLatch t :: st)) := by
  have hok := h.ok w
  have hbased := hok.based
  have htail := hok.tail
  have hnodup := hok.owns_nodup
  rw [hst] at hbased htail
  rw [Worker.owns, hst] at hnodup
  -- The task is not held any more, but its latch is set.
  refine h.update w { s.worker w with stack := st, ctl := .step } rfl
    ⟨?_, hbased.2, fun g hg => htail g (List.mem_of_mem_tail hg), fun _ _ _ => rfl⟩ ?_ ?_ ?_ ?_ ?_
  · simpa [Worker.owns, List.filterMap_cons, Frame.owns] using hnodup
  · simp [Worker.owns, hst, List.filterMap_cons, Frame.owns]
  · simp [Worker.awaits, hst, List.filterMap_cons, Frame.awaits]
  · intro t' ht'
    simp only [Worker.holds, hst, List.filterMap_cons, Frame.holds, List.mem_append,
      List.mem_cons] at ht' ⊢
    rcases ht' with hq | rfl | hs
    · exact Or.inl (Or.inl hq)
    · refine Or.inr (Or.inl ?_)
      simp [advance, State.go, State.modify]
    · exact Or.inl (Or.inr hs)
  · intro t' ht'
    by_cases heq : t' = t
    · subst heq
      exact Or.inl (by simpa [advance, State.modify, State.go] using ht')
    · exact Or.inl (by simpa [advance, State.modify, State.go, heq] using ht')
  · intro t' ht'
    by_cases heq : t' = t
    · subst heq
      simp [advance, State.go, State.modify]
    · simpa [advance, State.modify, State.go, heq] using ht'

theorem waits_seek {s : State W A V} (h : Waits s) (w : W) {l : Loop W A V} {r : Seek}
    {st : List (Frame W A V)} (hst : (s.worker w).stack = .seek l r :: st) :
    Waits (advance s w (.seek l r :: st)) := by
  -- A turn to the next thing to look at changes no task and no reference.
  have turn : ∀ r' ctl, Waits (s.go w (.seek l r' :: st) ctl) := by
    intro r' ctl
    refine h.replace w hst ?_ ?_ (by simp [Frame.holds]) ?_ (by simp [Frame.back])
    all_goals cases l <;> simp [Frame.owns, Frame.awaits, Frame.base]
  cases r with
  | check =>
      cases l with
      | idle =>
          simp only [advance]
          split
          · exact h.replace w hst rfl (by simp [Frame.awaits]) (by simp [Frame.holds])
              (fun _ => rfl) (by simp [Frame.back])
          · exact turn _ _
      | help t ra k =>
          simp only [advance]
          split
          · exact h.replace w hst rfl (by simp [Frame.awaits]) (by simp [Frame.holds])
              (by simp [Frame.base]) (by simp [Frame.back])
          · exact turn _ _
      | drain | initDrain => exact turn _ _
  | pop =>
      simp only [advance]
      cases hd : (s.worker w).deque with
      | nil => exact turn _ _
      | cons x d =>
          refine waits_run h w hst ?_
          intro t ht
          rw [hd] at ht
          exact List.mem_cons.mp ht
  | steal =>
      cases l with
      | idle | help => exact turn _ _
      | drain => exact h.finish w hst rfl rfl
      | initDrain hs out =>
          exact h.replace w hst rfl (by simp [Frame.awaits]) (by simp [Frame.holds])
            (fun _ => rfl) (by simp [Frame.back])

theorem waits_advance {s : State W A V} (h : Waits s) (w : W) :
    Waits (advance s w (s.worker w).stack) := by
  have hok := h.ok w
  cases hst : (s.worker w).stack with
  | nil => exact h
  | cons f st =>
  -- A worker that stays at a frame holds and awaits what it did.
  have hsame : ∀ {ctl}, f.back = false → Waits (s.go w (f :: st) ctl) := by
    intro ctl hf
    exact h.replace w hst rfl (fun _ ht => ht) (fun _ ht => ht) (fun hb => hb)
      (by rw [hf]; nofun)
  -- What each frame at the top does to the deque, the latch and the stack of its worker.
  cases f with
  | pop t ra k => exact waits_pop h w hst
  | setLatch t => exact waits_setLatch h w hst
  | seek l r => exact waits_seek h w hst
  | pushBack t ra k x =>
      simp only [advance]
      have hbased := hok.based
      have htail := hok.tail
      have hnodup := hok.owns_nodup
      rw [hst] at hbased htail
      rw [Worker.owns, hst] at hnodup
      -- The task that was popped by mistake goes back to where it was.
      refine h.update w
        { deque := x :: (s.worker w).deque
          stack := .seek (.help t ra k) .check :: st
          ctl := .step }
        (by simp [State.go, State.setDeque]) ⟨?_, ⟨by simp [Frame.base], hbased.2⟩, htail, ?_⟩
        ?_ ?_ ?_ ?_ ?_
      · simpa [Worker.owns, List.filterMap_cons, Frame.owns] using hnodup
      · simp [Frame.back]
      · simp [Worker.owns, hst, Frame.owns]
      · simp [Worker.awaits, hst, Frame.awaits]
      · intro t' ht'
        refine Or.inl ?_
        simp only [Worker.holds, hst, List.filterMap_cons, Frame.holds, List.cons_append,
          List.mem_cons, List.mem_append] at ht' ⊢
        tauto
      · exact fun t' ht' => Or.inl ht'
      · exact fun t' ht' => ht'
  | call t k | catchUnwind k | run hs | init hs => exact h
  | inline t ra k | exec t =>
      simp only [advance]
      split
      · refine Waits.replace (h.modify t _ ?_ ?_) w hst rfl (fun _ ht => ht) (fun _ ht => ht)
          (fun hb => hb) (by simp [Frame.back])
        · exact fun _ => rfl
        · exact fun _ hl => hl
      · exact hsame rfl
  | publish t r =>
      refine Waits.replace (h.modify t _ ?_ ?_) w hst rfl (by simp [Frame.awaits])
        (fun _ ht => ht) (by simp [Frame.base]) (by simp [Frame.back])
      · exact fun _ => rfl
      · exact fun _ hl => hl
  | take t ra k =>
      simp only [advance]
      split
      · refine Waits.leave_go (h.modify t _ ?_ ?_) w hst rfl rfl
        · exact fun _ => rfl
        · exact fun _ hl => hl
      · exact hsame rfl
  | finish hs out =>
      have hj : Waits (s.go w (.join hs out :: st) .step) :=
        h.replace w hst rfl (by simp [Frame.awaits]) (by simp [Frame.holds]) (fun _ => rfl)
          (by simp [Frame.back])
      exact hj.congr rfl rfl
  | join hs out =>
      cases hs with
      | nil => exact h.finish w hst rfl rfl
      | cons b hs =>
          simp only [advance]
          split
          all_goals
            exact h.replace w hst rfl (by simp [Frame.awaits]) (by simp [Frame.holds])
              (fun _ => rfl) (by simp [Frame.back])

/-- A new task is on its caller's queue. -/
theorem waits_call {s : State W A V} (h : Waits s) (w : W) (t : A) (hg : canCall s w t = true) :
    Waits (call s w t) := by
  unfold canCall at hg
  unfold call
  split
  case h_2 => exact h
  -- The caller holds its new task, which it awaits from now on.
  case h_1 a b k hctl =>
    simp only [hctl, Bool.not_eq_true'] at hg
    have hnew : ∀ w', t ∉ (s.worker w').owns := fun w' hmem => by
      rw [h.owns_live w' t hmem] at hg
      cases hg
    have hok := h.ok w
    have hback : ∀ f ∈ (s.worker w).stack, f.back = false := by
      intro f hf
      cases hst : (s.worker w).stack with
      | nil =>
          rw [hst] at hf
          cases hf
      | cons g st =>
          have htail := hok.tail
          rw [hst] at hf htail
          rcases List.mem_cons.mp hf with rfl | hmem
          · by_contra hb
            rw [Bool.not_eq_false] at hb
            have hstep := hok.head f (by rw [hst]; rfl) hb
            rw [hctl] at hstep
            cases hstep
          · exact htail f hmem
    have hworker : ((s.modify t fun _ => .new b).setDeque w (t :: (s.worker w).deque)).go w
        (.call t k :: (s.worker w).stack) (.run a) =
        { s with
          task := Function.update s.task t (.new b)
          worker := Function.update s.worker w
            { deque := t :: (s.worker w).deque
              stack := .call t k :: (s.worker w).stack
              ctl := .run a } } := by
      simp [State.go, State.setDeque, State.modify]
    rw [hworker]
    have hw : ∀ w', w' ≠ w → Function.update s.worker w
        { deque := t :: (s.worker w).deque
          stack := .call t k :: (s.worker w).stack
          ctl := .run a } w' = s.worker w' := fun w' hne => Function.update_of_ne hne _ _
    have howns : ∀ w' t', t' ∈ (Function.update s.worker w
        { deque := t :: (s.worker w).deque
          stack := .call t k :: (s.worker w).stack
          ctl := .run a } w').owns → (t' = t ∧ w' = w) ∨ t' ∈ (s.worker w').owns := by
      intro w' t' ht'
      by_cases hww : w' = w
      · subst hww
        rw [Function.update_self, Worker.owns, List.filterMap_cons] at ht'
        rcases List.mem_cons.mp ht' with rfl | hmem
        · exact Or.inl ⟨rfl, rfl⟩
        · exact Or.inr hmem
      · rw [hw w' hww] at ht'
        exact Or.inr ht'
    constructor
    · intro w'
      by_cases hww : w' = w
      · subst hww
        change (Function.update s.worker w' _ w').Waits
        rw [Function.update_self]
        refine ⟨?_, ⟨by simp [Frame.base], hok.based⟩, hback, by simp [Frame.back]⟩
        rw [Worker.owns, List.filterMap_cons]
        exact List.nodup_cons.mpr ⟨hnew w', hok.owns_nodup⟩
      · change (Function.update s.worker w _ w').Waits
        rw [hw w' hww]
        exact h.ok w'
    · intro x y t' hx hy
      rcases howns x t' hx with ⟨rfl, rfl⟩ | hx'
      · rcases howns y t' hy with ⟨-, rfl⟩ | hy'
        · rfl
        · exact absurd hy' (hnew y)
      · rcases howns y t' hy with ⟨rfl, rfl⟩ | hy'
        · exact absurd hx' (hnew x)
        · exact h.owns_unique x y t' hx' hy'
    · intro w' t' ht'
      change (Function.update s.task t _ t').live = true
      rcases howns w' t' ht' with ⟨rfl, -⟩ | hold
      · rw [Function.update_self]
        rfl
      · rw [Function.update_of_ne (fun heq : t' = t => hnew w' (heq ▸ hold))]
        exact h.owns_live w' t' hold
    · intro w' t' ht'
      by_cases heq : t' = t
      · -- The task has just been pushed.
        subst heq
        refine Or.inl ⟨w, ?_⟩
        change t' ∈ (Function.update s.worker w _ w).holds
        rw [Function.update_self]
        exact List.mem_append_left _ List.mem_cons_self
      · have hold : t' ∈ (s.worker w').awaits := by
          by_cases hww : w' = w
          · subst hww
            change t' ∈ (Function.update s.worker w' _ w').awaits at ht'
            rw [Function.update_self, Worker.awaits, List.filterMap_cons] at ht'
            exact (List.mem_cons.mp ht').resolve_left heq
          · change t' ∈ (Function.update s.worker w _ w').awaits at ht'
            rw [hw w' hww] at ht'
            exact ht'
        rcases h.waited w' t' hold with ⟨v, hv⟩ | hl
        · refine Or.inl ⟨v, ?_⟩
          by_cases hvw : v = w
          · subst hvw
            change t' ∈ (Function.update s.worker v _ v).holds
            rw [Function.update_self]
            exact List.mem_cons_of_mem _ hv
          · change t' ∈ (Function.update s.worker w _ v).holds
            rw [hw v hvw]
            exact hv
        · refine Or.inr ?_
          change (Function.update s.task t _ t').latch = true
          rw [Function.update_of_ne heq]
          exact hl

omit [DecidableEq A] in
/-- A thief executes what it has taken from another queue. -/
theorem waits_steal {s : State W A V} (h : Waits s) (w v : W) (hg : canSteal s w v = true) :
    Waits (steal s w v) := by
  unfold canSteal at hg
  unfold steal
  split
  case h_2 => exact h
  case h_1 l st x hst hx =>
    have hvw : v ≠ w := by
      split at hg
      · simp only [Bool.and_eq_true, decide_eq_true_eq] at hg
        exact hg.1
      · exact absurd hg Bool.false_ne_true
    have hrun : Waits (s.go w (.exec x :: .seek l .check :: st) .step) := by
      have := waits_run h w (d := (s.worker w).deque) (x := x) hst fun t ht => Or.inr ht
      simpa [State.setDeque, Function.update_eq_self] using this
    -- The thief has the task before the victim gives it up.
    have hcomm : (s.setDeque v (s.worker v).deque.dropLast).go w
        (.exec x :: .seek l .check :: st) .step =
        (s.go w (.exec x :: .seek l .check :: st) .step).setDeque v
          (s.worker v).deque.dropLast := by
      simp only [State.go, State.setDeque, Function.update_of_ne hvw,
        Function.update_of_ne hvw.symm, Function.update_comm hvw]
    rw [hcomm]
    have hv : (s.go w (.exec x :: .seek l .check :: st) .step).worker v = s.worker v :=
      Function.update_of_ne hvw _ _
    have hok := hrun.ok v
    refine hrun.update v
      { (s.go w (.exec x :: .seek l .check :: st) .step).worker v with
        deque := (s.worker v).deque.dropLast } rfl ⟨hok.owns_nodup, hok.based, hok.tail, hok.head⟩
      (List.Subset.refl _) (List.Subset.refl _) ?_ (fun t ht => Or.inl ht) (fun t ht => ht)
    intro t ht
    obtain ⟨d, hd⟩ := List.getLast?_eq_some_iff.mp hx
    rw [Worker.holds, hv, hd, List.mem_append, List.mem_append, List.mem_singleton] at ht
    rw [Worker.holds, hd, List.dropLast_concat, List.mem_append]
    rcases ht with (hq | rfl) | hs
    · exact Or.inl (Or.inl hq)
    · refine Or.inr (Or.inr (Or.inl ⟨w, hvw.symm, ?_⟩))
      change t ∈ Worker.holds (Function.update s.worker w _ w)
      rw [Function.update_self]
      exact List.mem_append_right _ List.mem_cons_self
    · exact Or.inl (Or.inr (hv ▸ hs))

/-- The step unwinds no execution of a task that a call waits for: the stolen
    branch has not panicked. -/
def BranchReturns (s : State W A V) : Action W A → Prop
  | .step w =>
      match (s.worker w).ctl, (s.worker w).stack with
      | .unwind, .exec t :: _ => ∀ w', t ∉ (s.worker w').awaits
      | _, _ => True
  | _ => True

theorem waits_next {s : State W A V} (h : Waits s) (a : Action W A) (hg : enabled s a = true)
    (hc : BranchReturns s a) : Waits (next s a) := by
  cases a with
  | step w =>
      simp only [next, step]
      split
      case h_1 p hctl => exact waits_start h w p (by rw [hctl]; simp)
      case h_2 v _ => exact waits_ret h w v
      case h_3 hctl =>
        refine waits_unwind h w hctl fun t st hst => ?_
        simp only [BranchReturns, hctl, hst] at hc
        exact hc
      case h_4 => exact waits_advance h w
      case h_5 | h_6 => exact h
  | call w t =>
      simp only [enabled, Bool.and_eq_true] at hg
      exact waits_call h w t hg.2
  | steal w v =>
      simp only [enabled, Bool.and_eq_true] at hg
      exact waits_steal h w v hg.2

end Scoped

end Cmpth

import Mathlib.Data.List.Infix
import Mathlib.Data.List.Perm.Subperm
import Mathlib.Tactic.Common
import Cmpth.Scoped.Engine

/-!
# Frames Outlive Task References

Why a task reference does not dangle, and the one way in which it does.

Two facts carry the argument. A reference is in at most one place: one
worker's queue, or one worker's hands while it executes the task. And a
worker's queue holds the tasks of the calls below in stack order, as far as
thieves have left them (`pending`). So the reference a `parallel_call` pops
after `a` is its own or there is none left to pop, and the branch that pushes
a foreign reference back is dead code.

A call that returns has therefore consumed its reference: it popped it, or
saw the latch that a thief sets last. Unwinding waits for neither. A panic in
`a`, or in a task run while helping, leaves the frame at once, and `safe_iff`
says that nothing else makes a reference dangle.

## Main definitions

* `Worker.owns`: The tasks whose frames a worker has.
* `pending`: The tasks of the calls below, newest first.
* `Worker.Ok`: What holds of one worker.
* `Inv`: The invariant of the engine.

## Theorems

* `prefix_pending_of_owns`: The queue's order survives a frame whose own task is not queued.
* `Inv.congr`: The invariant is about tasks and workers.
* `inv_started`: It holds at the beginning.
* `Inv.modify`: Closures and results may be written at any time.
* `Worker.Ok.deque_nil`: A worker that looks for work has an empty queue.
* `worker_cases`: The worker that changes, and the others.
* `Inv.update`: A worker that loses references keeps the invariant.
* `Inv.gain`: So does one that gets a reference nobody else has.
* `Inv.go`: A step on the worker's own stack.
* `Inv.replace`: The topmost frame goes on as `g`.
* `Inv.drop`: A frame with no queued task of its own is left.
* `Inv.same`, `inv_start`, `inv_ret`, `inv_advance`: Steps that touch no reference, and those of one
  frame.
* `inv_dropLast`: The victim gives up its oldest reference.
* `inv_steal`: A steal moves that reference to a worker whose own queue is empty.
* `Inv.leave_go`: A frame is left whose task nobody refers to any more.
* `inv_unwind`: Unwinding keeps the invariant as long as it finds tasks consumed.
* `inv_pop`: A pop after `a` finds the call's own task.
* `inv_setLatch`: The latch is the thief's last access.
* `inv_seek`: A worker that looks for work has an empty queue.
* `inv_call`: A new call owns a task nobody can refer to yet.
* `inv_next`: Each operation keeps the invariant.
* `not_safe`: An unwound frame whose task is still referred to is a dangling reference.
* `safe_iff`: Runs in which every unwound frame's task is consumed are the safe ones.
* `started_twoWorkers`, `safe_iff_stolenBranch`: A branch that is stolen and returns.
* `panic_orphans_task`: A thief executes a task whose frame is gone.
-/

namespace Cmpth

namespace Scoped

variable {W A V : Type*}

/-- The tasks whose `parallel_call` frames are on the worker's stack. -/
def Worker.owns (wk : Worker W A V) : List A :=
  wk.stack.filterMap Frame.owns

/-- A frame whose call has its task back, or has seen its latch. -/
def Frame.consumed : Frame W A V → Option A
  | .inline t _ _ | .take t _ _ => some t
  | _ => none

/-- The tasks that calls lower on the stack may still have queued, newest
    first. A worker that looks for other work has none. -/
def pending : List (Frame W A V) → List A
  | .call t _ :: st | .pop t _ _ :: st => t :: pending st
  | .pushBack .. :: st | .inline .. :: st | .take .. :: st | .exec _ :: st | .publish .. :: st
  | .setLatch _ :: st | .catchUnwind _ :: st => pending st
  | _ => []

/-- What holds of one worker: nothing twice, and thieves have only shortened
    its queue. -/
structure Worker.Ok (wk : Worker W A V) : Prop where
  refs_nodup : wk.refs.Nodup
  owns_nodup : wk.owns.Nodup
  fifo : wk.deque <+: pending wk.stack
  keeps : ∀ t ra k x, .pushBack t ra k x ∉ wk.stack

/-- The invariant: references and frames each in one place, none of a task
    that is gone, and no reference left once the call or the latch says so. -/
structure Inv (s : State W A V) : Prop where
  ok : ∀ w, (s.worker w).Ok
  refs_unique : ∀ w w' t, t ∈ (s.worker w).refs → t ∈ (s.worker w').refs → w = w'
  owns_unique : ∀ w w' t, t ∈ (s.worker w).owns → t ∈ (s.worker w').owns → w = w'
  safe : Safe s
  owns_live : ∀ w t, t ∈ (s.worker w).owns → (s.task t).live = true
  consumed : ∀ w f t, f ∈ (s.worker w).stack → f.consumed = some t →
    ∀ w', t ∉ (s.worker w').refs
  latch : ∀ t, (s.task t).live = true → (s.task t).latch = true → ∀ w, t ∉ (s.worker w).refs

/-- The queue's order survives a frame whose own task is not queued. -/
theorem prefix_pending_of_owns {d : List A} {f : Frame W A V} {st : List (Frame W A V)} {t : A}
    (h : d <+: pending (f :: st)) (hf : f.owns = some t) (ht : t ∉ d) : d <+: pending st := by
  cases d with
  | nil => exact List.nil_prefix
  | cons x d =>
      rw [List.mem_cons, not_or] at ht
      cases f with
      | call t' k | pop t' ra k =>
          simp only [Frame.owns, Option.some.injEq] at hf
          simp only [pending, List.cons_prefix_cons, hf] at h
          exact absurd h.1.symm ht.1
      | pushBack _ _ _ _ | inline _ _ _ | take _ _ _ => exact h
      | seek l r =>
          simp [pending] at h
      | exec _ | publish _ _ | setLatch _ | catchUnwind _ | run _ | init _ | finish _ _
      | join _ _ => simp [Frame.owns] at hf

theorem Inv.congr {s s' : State W A V} (h : Inv s) (ht : s'.task = s.task)
    (hw : s'.worker = s.worker) : Inv s' := by
  obtain ⟨h1, h2, h3, h4, h5, h6, h7⟩ := h
  constructor
  all_goals simpa only [Safe, ht, hw]

theorem inv_started {s : State W A V} {w₀ : W} {hs : List W} {p : Prog V}
    (h : Started s w₀ hs p) : Inv s := by
  -- Only the root worker has frames, and none of them has a task.
  have hrefs : ∀ w, (s.worker w).refs = [] ∧ (s.worker w).owns = [] := by
    intro w
    by_cases hw : w = w₀
    · subst hw
      rcases h.root with hr | hr
      all_goals simp [Worker.refs, Worker.owns, hr, List.filterMap_cons, Frame.executes, Frame.owns]
    · simp [Worker.refs, Worker.owns, h.idle w hw, List.filterMap_cons, Frame.executes, Frame.owns]
  refine ⟨?_, ?_, ?_, ?_, ?_, ?_, ?_⟩
  · intro w
    refine ⟨by simp [hrefs w], by simp [hrefs w], ?_, ?_⟩
    · have : (s.worker w).deque = [] := by
        have := (hrefs w).1
        simp only [Worker.refs, List.append_eq_nil_iff] at this
        exact this.1
      rw [this]
      exact List.nil_prefix
    · intro t ra k x hmem
      have hown : t ∈ (s.worker w).owns := List.mem_filterMap.mpr ⟨_, hmem, rfl⟩
      simp [hrefs w] at hown
  · intro w w' t ht
    simp [hrefs w] at ht
  · intro w w' t ht
    simp [hrefs w] at ht
  · intro w t ht
    simp [hrefs w] at ht
  · intro w t ht
    simp [hrefs w] at ht
  · intro w f t _ _ w' ht
    simp [hrefs w'] at ht
  · intro t _ _ w ht
    simp [hrefs w] at ht

section

variable [DecidableEq A]

/-- Closures and results may be written at any time. -/
theorem Inv.modify {s : State W A V} (h : Inv s) (t : A) (f : StackTask V → StackTask V)
    (hlive : ∀ x, (f x).live = x.live) (hlatch : ∀ x, (f x).latch = x.latch) :
    Inv (s.modify t f) := by
  -- The write keeps whether the task is there, and its latch.
  have hl : ∀ t', ((s.modify t f).task t').live = (s.task t').live := by
    intro t'
    by_cases ht : t' = t
    · subst ht
      simp only [State.modify, Function.update_self, hlive]
    · simp only [State.modify, Function.update_of_ne ht]
  have hla : ∀ t', ((s.modify t f).task t').latch = (s.task t').latch := by
    intro t'
    by_cases ht : t' = t
    · subst ht
      simp only [State.modify, Function.update_self, hlatch]
    · simp only [State.modify, Function.update_of_ne ht]
  refine ⟨h.ok, h.refs_unique, h.owns_unique, ?_, ?_, h.consumed, ?_⟩
  · exact fun w t' ht' => (hl t').trans (h.safe w t' ht')
  · exact fun w t' ht' => (hl t').trans (h.owns_live w t' ht')
  · exact fun t' hlt hlat => h.latch t' ((hl t').symm.trans hlt) ((hla t').symm.trans hlat)

end

variable [DecidableEq W]

omit [DecidableEq W] in
theorem Worker.Ok.deque_nil {wk : Worker W A V} (h : wk.Ok) {l : Loop W A V} {r : Seek}
    {st : List (Frame W A V)} (hst : wk.stack = .seek l r :: st) : wk.deque = [] := by
  have hfifo := h.fifo
  rw [hst] at hfifo
  exact List.prefix_nil.mp hfifo

theorem worker_cases {s s' : State W A V} {w : W} {wk : Worker W A V}
    (hworker : s'.worker = Function.update s.worker w wk) (w' : W) :
    (w' = w ∧ s'.worker w' = wk) ∨ (w' ≠ w ∧ s'.worker w' = s.worker w') := by
  by_cases hww : w' = w
  · exact Or.inl ⟨hww, by rw [hworker, hww, Function.update_self]⟩
  · exact Or.inr ⟨hww, by rw [hworker, Function.update_of_ne hww]⟩

/-- A worker changes without getting a reference or a frame it did not have.
    Tasks may be left and latches set once their references are gone. -/
theorem Inv.update {s s' : State W A V} (h : Inv s) (w : W) (wk : Worker W A V)
    (hworker : s'.worker = Function.update s.worker w wk) (hok : wk.Ok)
    (hrefs : wk.refs ⊆ (s.worker w).refs) (howns : wk.owns ⊆ (s.worker w).owns)
    (hcons : ∀ f t, f ∈ wk.stack → f.consumed = some t →
      f ∈ (s.worker w).stack ∨ (t ∉ wk.refs ∧ ∀ w', w' ≠ w → t ∉ (s.worker w').refs))
    (hlive : ∀ t, (s.task t).live = true → (s'.task t).live = true ∨
      (t ∉ wk.refs ∧ t ∉ wk.owns ∧
        ∀ w', w' ≠ w → t ∉ (s.worker w').refs ∧ t ∉ (s.worker w').owns))
    (hlatch : ∀ t, (s'.task t).live = true → (s'.task t).latch = true →
      ((s.task t).live = true ∧ (s.task t).latch = true) ∨
      (t ∉ wk.refs ∧ ∀ w', w' ≠ w → t ∉ (s.worker w').refs)) : Inv s' := by
  -- Neither references nor frames have been added anywhere.
  have refs : ∀ w', (s'.worker w').refs ⊆ (s.worker w').refs := by
    intro w'
    rcases worker_cases hworker w' with ⟨rfl, hw⟩ | ⟨-, hw⟩
    · rwa [hw]
    · rw [hw]
      exact List.Subset.refl _
  have owns : ∀ w', (s'.worker w').owns ⊆ (s.worker w').owns := by
    intro w'
    rcases worker_cases hworker w' with ⟨rfl, hw⟩ | ⟨-, hw⟩
    · rwa [hw]
    · rw [hw]
      exact List.Subset.refl _
  -- What the worker has let go of, nobody has.
  have gone : ∀ t, (t ∉ wk.refs ∧ ∀ w', w' ≠ w → t ∉ (s.worker w').refs) →
      ∀ w', t ∉ (s'.worker w').refs := by
    intro t ht w'
    rcases worker_cases hworker w' with ⟨-, hw⟩ | ⟨hne, hw⟩
    · rw [hw]
      exact ht.1
    · rw [hw]
      exact ht.2 w' hne
  refine ⟨?_, ?_, ?_, ?_, ?_, ?_, ?_⟩
  · intro w'
    rcases worker_cases hworker w' with ⟨-, hw⟩ | ⟨-, hw⟩
    · rwa [hw]
    · rw [hw]
      exact h.ok w'
  · exact fun a b t ha hb => h.refs_unique a b t (refs a ha) (refs b hb)
  · exact fun a b t ha hb => h.owns_unique a b t (owns a ha) (owns b hb)
  · intro w' t ht
    rcases hlive t (h.safe w' t (refs w' ht)) with hl | ⟨hr, -, ho⟩
    · exact hl
    · exact absurd ht (gone t ⟨hr, fun w' hww => (ho w' hww).1⟩ w')
  · intro w' t ht
    -- A task that is not live any more has neither a reference nor a frame.
    rcases hlive t (h.owns_live w' t (owns w' ht)) with hl | ⟨-, hr, ho⟩
    · exact hl
    · rcases worker_cases hworker w' with ⟨-, hw⟩ | ⟨hne, hw⟩
      · exact absurd (hw ▸ ht) hr
      · exact absurd (hw ▸ ht) (ho w' hne).2
  · intro w' f t hf hft
    have old : f ∈ (s.worker w').stack → ∀ w'', t ∉ (s'.worker w'').refs :=
      fun hmem w'' ht => h.consumed w' f t hmem hft w'' (refs w'' ht)
    rcases worker_cases hworker w' with ⟨rfl, hw⟩ | ⟨-, hw⟩
    · rcases hcons f t (hw ▸ hf) hft with hmem | hgone
      · exact old hmem
      · exact gone t hgone
    · exact old (hw ▸ hf)
  · intro t hl hla
    rcases hlatch t hl hla with ⟨hl', hla'⟩ | hgone
    · exact fun w' ht => h.latch t hl' hla' w' (refs w' ht)
    · exact gone t hgone

/-- A worker gets a reference that nobody has, to a live task whose frame is
    its own or another's, or is new with it. -/
theorem Inv.gain {s s' : State W A V} (h : Inv s) (w : W) (wk : Worker W A V) (x : A)
    (hworker : s'.worker = Function.update s.worker w wk) (hok : wk.Ok)
    (hrefs : wk.refs ⊆ x :: (s.worker w).refs)
    (howns : wk.owns ⊆ (s.worker w).owns ∨
      (wk.owns ⊆ x :: (s.worker w).owns ∧ ∀ w', x ∉ (s.worker w').owns))
    (hx : ∀ w', x ∉ (s.worker w').refs)
    (hcons : ∀ f t, f ∈ wk.stack → f.consumed = some t → f ∈ (s.worker w).stack)
    (hxc : ∀ w' f, f ∈ (s.worker w').stack → f.consumed ≠ some x)
    (htask : ∀ t, t ≠ x → s'.task t = s.task t)
    (hlive : (s'.task x).live = true) (hlatch : (s'.task x).latch = false) : Inv s' := by
  -- A reference is the new one, or an old one.
  have refs : ∀ w' t, t ∈ (s'.worker w').refs → (t = x ∧ w' = w) ∨ t ∈ (s.worker w').refs := by
    intro w' t ht
    rcases worker_cases hworker w' with ⟨rfl, hw⟩ | ⟨-, hw⟩
    · rcases List.mem_cons.mp (hrefs (hw ▸ ht)) with rfl | hmem
      · exact Or.inl ⟨rfl, rfl⟩
      · exact Or.inr hmem
    · exact Or.inr (hw ▸ ht)
  have owns : ∀ w' t, t ∈ (s'.worker w').owns →
      (t = x ∧ w' = w ∧ ∀ w', x ∉ (s.worker w').owns) ∨ t ∈ (s.worker w').owns := by
    intro w' t ht
    rcases worker_cases hworker w' with ⟨rfl, hw⟩ | ⟨-, hw⟩
    · rcases howns with hold | ⟨hold, hnew⟩
      · exact Or.inr (hold (hw ▸ ht))
      · rcases List.mem_cons.mp (hold (hw ▸ ht)) with rfl | hmem
        · exact Or.inl ⟨rfl, rfl, hnew⟩
        · exact Or.inr hmem
    · exact Or.inr (hw ▸ ht)
  have stack : ∀ w' f t, f ∈ (s'.worker w').stack → f.consumed = some t →
      f ∈ (s.worker w').stack := by
    intro w' f t hf hft
    rcases worker_cases hworker w' with ⟨rfl, hw⟩ | ⟨-, hw⟩
    · exact hcons f t (hw ▸ hf) hft
    · exact hw ▸ hf
  refine ⟨?_, ?_, ?_, ?_, ?_, ?_, ?_⟩
  · intro w'
    rcases worker_cases hworker w' with ⟨-, hw⟩ | ⟨-, hw⟩
    · rwa [hw]
    · rw [hw]
      exact h.ok w'
  · intro a b t ha hb
    -- Nobody has had a reference to `x`, so two of it are the worker's own.
    rcases refs a t ha with ⟨rfl, rfl⟩ | ha'
    · rcases refs b t hb with ⟨-, rfl⟩ | hb'
      · rfl
      · exact absurd hb' (hx b)
    · rcases refs b t hb with ⟨rfl, rfl⟩ | hb'
      · exact absurd ha' (hx a)
      · exact h.refs_unique a b t ha' hb'
  · intro a b t ha hb
    rcases owns a t ha with ⟨rfl, rfl, hnew⟩ | ha'
    · rcases owns b t hb with ⟨-, rfl, -⟩ | hb'
      · rfl
      · exact absurd hb' (hnew b)
    · rcases owns b t hb with ⟨rfl, rfl, hnew⟩ | hb'
      · exact absurd ha' (hnew a)
      · exact h.owns_unique a b t ha' hb'
  · intro w' t ht
    by_cases htx : t = x
    · rwa [htx]
    · rcases refs w' t ht with ⟨rfl, -⟩ | hmem
      · exact absurd rfl htx
      · rw [htask t htx]
        exact h.safe w' t hmem
  · intro w' t ht
    by_cases htx : t = x
    · rwa [htx]
    · rcases owns w' t ht with ⟨rfl, -⟩ | hmem
      · exact absurd rfl htx
      · rw [htask t htx]
        exact h.owns_live w' t hmem
  · intro w' f t hf hft w'' ht
    have hold := stack w' f t hf hft
    rcases refs w'' t ht with ⟨rfl, -⟩ | hmem
    · exact hxc w' f hold hft
    · exact h.consumed w' f t hold hft w'' hmem
  · intro t hl hla w' ht
    by_cases htx : t = x
    · rw [htx, hlatch] at hla
      exact Bool.false_ne_true hla
    · rw [htask t htx] at hl hla
      rcases refs w' t ht with ⟨rfl, -⟩ | hmem
      · exact absurd rfl htx
      · exact h.latch t hl hla w' hmem

/-- A step on the worker's own stack. -/
theorem Inv.go {s : State W A V} (h : Inv s) (w : W) {st st' : List (Frame W A V)}
    {ctl : Control V} (hst : (s.worker w).stack = st)
    (hexec : (st'.filterMap Frame.executes).Sublist (st.filterMap Frame.executes))
    (howns : (st'.filterMap Frame.owns).Sublist (st.filterMap Frame.owns))
    (hfifo : (s.worker w).deque <+: pending st')
    (hcons : ∀ f ∈ st', ∀ t, f.consumed = some t → f ∈ st ∨ ∀ w', t ∉ (s.worker w').refs)
    (hkeeps : ∀ t ra k x, .pushBack t ra k x ∉ st') : Inv (s.go w st' ctl) := by
  have hok := h.ok w
  have hr : (Worker.refs { s.worker w with stack := st', ctl := ctl }).Sublist
      (s.worker w).refs := by
    rw [Worker.refs, Worker.refs, hst]
    exact List.Sublist.append (List.Sublist.refl _) hexec
  have ho : (Worker.owns { s.worker w with stack := st', ctl := ctl }).Sublist
      (s.worker w).owns := by
    rw [Worker.owns, Worker.owns, hst]
    exact howns
  refine h.update w _ rfl ⟨hok.refs_nodup.sublist hr, hok.owns_nodup.sublist ho, hfifo, hkeeps⟩
    hr.subset ho.subset ?_ ?_ ?_
  · -- A frame that is new at the top refers to what an old one referred to, or to what nobody has.
    intro f t hf hft
    rcases hcons f hf t hft with hmem | hgone
    · exact Or.inl (hst ▸ hmem)
    · exact Or.inr ⟨fun hmem => hgone w (hr.subset hmem), fun w' _ => hgone w'⟩
  · exact fun t ht => Or.inl ht
  · exact fun t hl hla => Or.inl ⟨hl, hla⟩

/-- The topmost frame goes on as `g`. -/
theorem Inv.replace {s : State W A V} (h : Inv s) (w : W) {f g : Frame W A V}
    {st : List (Frame W A V)} {ctl : Control V} (hst : (s.worker w).stack = f :: st)
    (he : g.executes = f.executes) (ho : g.owns = f.owns)
    (hfifo : (s.worker w).deque <+: pending (g :: st))
    (hcons : ∀ t, g.consumed = some t → ∀ w', t ∉ (s.worker w').refs)
    (hkeep : ∀ t ra k x, g ≠ .pushBack t ra k x) : Inv (s.go w (g :: st) ctl) := by
  refine h.go w hst ?_ ?_ hfifo ?_ ?_
  · simp only [List.filterMap_cons, he]
    exact List.Sublist.refl _
  · simp only [List.filterMap_cons, ho]
    exact List.Sublist.refl _
  · intro f' hf' t ht
    -- Of the new frame it is a hypothesis; the others are those of before.
    rcases List.mem_cons.mp hf' with rfl | hmem
    · exact Or.inr (hcons t ht)
    · exact Or.inl (List.mem_cons_of_mem _ hmem)
  · intro t ra k x hmem
    rcases List.mem_cons.mp hmem with heq | hmem
    · exact hkeep t ra k x heq.symm
    · exact (h.ok w).keeps t ra k x (hst ▸ List.mem_cons_of_mem _ hmem)

/-- A frame with no queued task of its own is left. -/
theorem Inv.drop {s : State W A V} (h : Inv s) (w : W) {f : Frame W A V}
    {st : List (Frame W A V)} {ctl : Control V} (hst : (s.worker w).stack = f :: st)
    (hf : pending (f :: st) = pending st) : Inv (s.go w st ctl) := by
  have hok := h.ok w
  have hfifo := hok.fifo
  rw [hst, hf] at hfifo
  have hsub : st.Sublist (f :: st) := List.sublist_cons_self f st
  refine h.go w hst (hsub.filterMap _) (hsub.filterMap _) hfifo ?_ ?_
  · exact fun g hg _ _ => Or.inl (List.mem_cons_of_mem _ hg)
  · exact fun t ra k x hmem => hok.keeps t ra k x (hst ▸ List.mem_cons_of_mem _ hmem)

theorem Inv.same {s : State W A V} (h : Inv s) (w : W) {f : Frame W A V}
    {st : List (Frame W A V)} {ctl : Control V} (hst : (s.worker w).stack = f :: st) :
    Inv (s.go w (f :: st) ctl) := by
  have hok := h.ok w
  refine h.go w hst (List.Sublist.refl _) (List.Sublist.refl _) (hst ▸ hok.fifo)
    (fun f hf _ _ => Or.inl hf) (hst ▸ hok.keeps)

theorem inv_start {s : State W A V} (h : Inv s) (w : W) (p : Prog V) :
    Inv (start s w p (s.worker w).stack) := by
  have hok := h.ok w
  have hkeeps := hok.keeps
  have hfifo := hok.fifo
  cases p with
  | parallelCall a b k => exact h
  | ret v | panic =>
    exact h.go w rfl (List.Sublist.refl _) (List.Sublist.refl _) hfifo
      (fun f hf _ _ => Or.inl hf) hkeeps
  | catchUnwind p k =>
    -- The new frame refers to no task.
    refine h.go w rfl (List.Sublist.refl _) (List.Sublist.refl _) hfifo ?_ ?_
    · intro f hf t ht
      rcases List.mem_cons.mp hf with rfl | hmem
      · cases ht
      · exact .inl hmem
    · intro t ra k x hmem
      rcases List.mem_cons.mp hmem with heq | hmem
      · cases heq
      · exact hkeeps t ra k x hmem

/-- The victim gives up its oldest reference. -/
theorem inv_dropLast {s : State W A V} (h : Inv s) (v : W) {d : List A} {x : A}
    (hd : (s.worker v).deque = d ++ [x]) :
    Inv (s.setDeque v d) ∧ ∀ w', x ∉ ((s.setDeque v d).worker w').refs := by
  have hok := h.ok v
  -- The oldest reference is the first of those that the victim has.
  have hrefs :
      (s.worker v).refs.Perm (x :: (d ++ (s.worker v).stack.filterMap Frame.executes)) := by
    simp only [Worker.refs, hd, List.append_assoc]
    exact List.perm_middle
  have hnd := hrefs.nodup hok.refs_nodup
  rw [List.nodup_cons] at hnd
  constructor
  · refine h.update v { s.worker v with deque := d } rfl ?_ ?_ ?_ ?_ ?_ ?_
    · refine ⟨hnd.2, hok.owns_nodup, ?_, hok.keeps⟩
      exact (List.prefix_append d [x]).trans (hd ▸ hok.fifo)
    · exact fun t ht => hrefs.symm.subset (List.mem_cons_of_mem _ ht)
    · exact List.Subset.refl _
    · exact fun f t hf _ => Or.inl hf
    · exact fun t ht => Or.inl ht
    · exact fun t hl hla => Or.inl ⟨hl, hla⟩
  · intro w' hmem
    by_cases hv : w' = v
    · subst hv
      simp only [State.setDeque, Function.update_self] at hmem
      exact hnd.1 hmem
    · simp only [State.setDeque, Function.update_of_ne hv] at hmem
      exact hv (h.refs_unique w' v x hmem (hrefs.symm.subset List.mem_cons_self))

/-- A steal moves that reference to a worker whose own queue is empty. -/
theorem inv_steal {s : State W A V} (h : Inv s) (w v : W) (hg : canSteal s w v = true) :
    Inv (steal s w v) := by
  unfold canSteal at hg
  unfold steal
  split
  case h_2 => exact h
  case h_1 l st x hst hx =>
    have hvw : v ≠ w := by
      split at hg
      · simp only [Bool.and_eq_true, decide_eq_true_eq] at hg
        exact hg.1
      · exact absurd hg Bool.false_ne_true
    -- The victim gives up the oldest entry, which then nobody refers to.
    obtain ⟨d, hd⟩ := List.getLast?_eq_some_iff.mp hx
    have hxv : x ∈ (s.worker v).refs := by simp [Worker.refs, hd]
    obtain ⟨hdrop, hgone⟩ := inv_dropLast h v hd
    have hworker : (s.setDeque v d).worker w = s.worker w := by
      simp [State.setDeque, hvw.symm]
    have hokw := h.ok w
    have hdq := hokw.deque_nil hst
    have hrefs : (s.worker w).refs = st.filterMap Frame.executes := by
      simp [Worker.refs, hdq, hst, List.filterMap_cons, Frame.executes]
    have howns : (s.worker w).owns =
        List.filterMap Frame.owns (.exec x :: .seek l .check :: st) := by
      cases l <;> simp [Worker.owns, hst, List.filterMap_cons, Frame.owns]
    rw [hd, List.dropLast_concat]
    refine hdrop.gain w
      { s.worker w with stack := .exec x :: .seek l .check :: st, ctl := .step } x
      ?_ ?_ ?_ ?_ hgone ?_ ?_ (fun _ _ => rfl) (h.safe v x hxv) ?_
    · simp [State.go, hworker]
    · refine ⟨?_, ?_, hdq ▸ List.nil_prefix, by simpa [hst] using hokw.keeps⟩
      · have hxw := hgone w
        have hnd := hokw.refs_nodup
        rw [hworker, hrefs] at hxw
        rw [hrefs] at hnd
        simpa [Worker.refs, hdq, List.filterMap_cons, Frame.executes] using And.intro hxw hnd
      · have hnd := hokw.owns_nodup
        rw [howns] at hnd
        exact hnd
    · rw [hworker, hrefs]
      simp [Worker.refs, hdq, List.filterMap_cons, Frame.executes]
    · rw [hworker, howns]
      exact Or.inl (List.Subset.refl _)
    · intro f t hf hft
      rw [hworker, hst]
      simp only [List.mem_cons] at hf
      rcases hf with rfl | rfl | hmem
      · simp [Frame.consumed] at hft
      · simp [Frame.consumed] at hft
      · exact List.mem_cons_of_mem _ hmem
    · intro w' f hf hft
      have hstack : ((s.setDeque v d).worker w').stack = (s.worker w').stack := by
        by_cases hv : w' = v
        · subst hv
          simp only [State.setDeque, Function.update_self]
        · simp only [State.setDeque, Function.update_of_ne hv]
      exact h.consumed w' f x (hstack ▸ hf) hft v hxv
    · -- A task in a queue has not been executed, so its latch is not set.
      by_contra hla
      rw [Bool.not_eq_false] at hla
      exact h.latch x (h.safe v x hxv) hla v hxv

variable [DecidableEq A]

/-- A frame is left whose task nobody refers to any more. -/
theorem Inv.leave_go {s : State W A V} (h : Inv s) (w : W) {t : A} {f : Frame W A V}
    {st : List (Frame W A V)} {ctl : Control V} (hst : (s.worker w).stack = f :: st)
    (hf : f.owns = some t) (hgone : ∀ w', t ∉ (s.worker w').refs)
    (hfifo : (s.worker w).deque <+: pending st) : Inv ((s.leave t).go w st ctl) := by
  have hok := h.ok w
  -- A frame that owns a task is not one that executes it.
  have hfx : f.executes = none := by
    cases f <;> simp_all [Frame.owns, Frame.executes]
  have hrefs : Worker.refs { s.worker w with stack := st, ctl := ctl } = (s.worker w).refs := by
    simp only [Worker.refs, hst, List.filterMap_cons, hfx]
  have howns : (s.worker w).owns = t :: st.filterMap Frame.owns := by
    simp only [Worker.owns, hst, List.filterMap_cons, hf]
  have hnd := hok.owns_nodup
  rw [howns] at hnd
  refine h.update w { s.worker w with stack := st, ctl := ctl } rfl ?_ ?_ ?_ ?_ ?_ ?_
  · refine ⟨hrefs ▸ hok.refs_nodup, hnd.of_cons, hfifo, ?_⟩
    intro t' ra k x hmem
    exact hok.keeps t' ra k x (hst ▸ List.mem_cons_of_mem _ hmem)
  · rw [hrefs]
    exact List.Subset.refl _
  · rw [howns]
    exact List.subset_cons_self _ _
  · intro g t' hg _
    exact Or.inl (hst ▸ List.mem_cons_of_mem _ hg)
  · intro t' ht'
    by_cases heq : t' = t
    · -- No frame and no reference of the left task remains.
      subst heq
      refine Or.inr ⟨hrefs ▸ hgone w, (List.nodup_cons.mp hnd).1, fun w' hw' => ⟨hgone w', ?_⟩⟩
      intro hmem
      exact hw' (h.owns_unique w' w t' hmem (howns ▸ List.mem_cons_self))
    · refine Or.inl ?_
      simpa [State.leave, State.modify, State.go, heq] using ht'
  · intro t' hl hla
    by_cases heq : t' = t
    · subst heq
      simp [State.leave, State.modify, State.go] at hl
    · refine Or.inl ?_
      simpa [State.leave, State.modify, State.go, heq] using And.intro hl hla

theorem inv_ret {s : State W A V} (h : Inv s) (w : W) (v : V) :
    Inv (ret s w v (s.worker w).stack) := by
  have hok := h.ok w
  have hfifo := hok.fifo
  unfold ret
  split
  case h_1 hst | h_3 hst | h_5 hst | h_6 hst =>
    rw [hst] at hfifo
    exact h.replace w hst rfl rfl hfifo (by simp [Frame.consumed]) (by simp)
  case h_2 t ra k st hst =>
    refine h.leave_go w hst rfl ?_ ?_
    · exact h.consumed w _ t (hst ▸ List.mem_cons_self) rfl
    · simpa only [hst, pending] using hfifo
  case h_4 hst => exact h.drop w hst rfl
  case h_7 => exact h

/-- Unwinding keeps the invariant as long as it finds tasks consumed. -/
theorem inv_unwind {s : State W A V} (h : Inv s) (w : W)
    (hc : ∀ f st, (s.worker w).stack = f :: st → ∀ t, f.owns = some t →
      ∀ w', t ∉ (s.worker w').refs) :
    Inv (unwind s w (s.worker w).stack) := by
  have hok := h.ok w
  have hfifo := hok.fifo
  have left : ∀ f st t, (s.worker w).stack = f :: st → f.owns = some t →
      Inv ((s.leave t).go w st .unwind) := by
    intro f st t hst hf
    have hgone := hc f st hst t hf
    refine h.leave_go w hst hf hgone (prefix_pending_of_owns (hst ▸ hfifo) hf ?_)
    exact fun hmem => hgone w (List.mem_append_left _ hmem)
  unfold unwind
  split
  case h_1 hst | h_2 hst | h_3 hst | h_4 hst | h_5 hst | h_6 hst => exact left _ _ _ hst rfl
  case h_7 hst | h_8 hst => exact h.drop w hst rfl
  case h_9 hst =>
    rw [hst] at hfifo
    exact h.replace w hst rfl rfl hfifo (by simp [Frame.consumed]) (by simp)
  case h_10 | h_11 => exact h.congr rfl rfl
  case h_12 hst | h_13 hst | h_14 hst =>
    -- Such a frame has found the queue empty.
    rw [hst] at hfifo
    exact h.go w hst (List.nil_sublist _) (List.nil_sublist _) hfifo (by simp) (by simp)
  case h_15 => exact h

/-- After `a`, the newest queued task is the call's own. -/
theorem inv_pop {s : State W A V} (h : Inv s) (w : W) {t : A} {ra : V} {k : V → V → Prog V}
    {st : List (Frame W A V)} (hst : (s.worker w).stack = .pop t ra k :: st) :
    Inv (advance s w (.pop t ra k :: st)) := by
  have hok := h.ok w
  have hkeeps := hok.keeps
  have hfifo := hok.fifo
  simp only [hst, pending] at hfifo
  unfold advance
  simp only
  split
  case h_1 hd =>
    -- The task was stolen, and the frame looks for it.
    refine h.replace w hst rfl rfl ?_ (by rintro _ ⟨⟩) (by rintro _ _ _ _ ⟨⟩)
    rw [hd]
    exact List.nil_prefix
  case h_2 x d hd =>
    -- The queue holds the tasks of the frames below in order, so this is ours.
    rw [hd, List.cons_prefix_cons] at hfifo
    obtain ⟨rfl, hd'⟩ := hfifo
    rw [if_pos rfl]
    have hrefs : (s.worker w).refs = x :: (d ++ st.filterMap Frame.executes) := by
      simp [Worker.refs, hd, hst, List.filterMap_cons, Frame.executes]
    have hnd := hok.refs_nodup
    rw [hrefs, List.nodup_cons] at hnd
    refine h.update w { deque := d, stack := .inline x ra k :: st, ctl := .step }
      ?_ ?_ ?_ ?_ ?_ ?_ ?_
    · simp [State.go, State.setDeque]
    · refine ⟨?_, ?_, ?_, ?_⟩
      · simpa [Worker.refs, List.filterMap_cons, Frame.executes] using hnd.2
      · simpa [Worker.owns, hst, List.filterMap_cons, Frame.owns] using hok.owns_nodup
      · simpa [pending] using hd'
      · simpa [hst] using hkeeps
    · intro t' ht'
      rw [hrefs]
      refine List.mem_cons_of_mem _ ?_
      simpa [Worker.refs, List.filterMap_cons, Frame.executes] using ht'
    · simp [Worker.owns, hst, Frame.owns]
    · intro f t' hf hft
      rcases List.mem_cons.mp hf with rfl | hmem
      · simp only [Frame.consumed, Option.some.injEq] at hft
        subst hft
        refine Or.inr ⟨?_, fun w' hw' hmem => ?_⟩
        · simpa [Worker.refs, List.filterMap_cons, Frame.executes] using hnd.1
        · exact hw' (h.refs_unique w' w x hmem (hrefs ▸ List.mem_cons_self))
      · exact Or.inl (hst ▸ List.mem_cons_of_mem _ hmem)
    · exact fun t' ht' => Or.inl ht'
    · exact fun t' hl hla => Or.inl ⟨hl, hla⟩

/-- The latch is the thief's last access. -/
theorem inv_setLatch {s : State W A V} (h : Inv s) (w : W) {t : A} {st : List (Frame W A V)}
    (hst : (s.worker w).stack = .setLatch t :: st) :
    Inv (advance s w (.setLatch t :: st)) := by
  have hok := h.ok w
  have hrefs :
      (s.worker w).refs.Perm (t :: ((s.worker w).deque ++ st.filterMap Frame.executes)) := by
    simp only [Worker.refs, hst, List.filterMap_cons, Frame.executes]
    exact List.perm_middle
  have hnd := hrefs.nodup hok.refs_nodup
  rw [List.nodup_cons] at hnd
  -- The reference to the task was this thief's alone, and goes with its frame.
  have hgone : ∀ w', w' ≠ w → t ∉ (s.worker w').refs := fun w' hw' hmem =>
    hw' (h.refs_unique w' w t hmem (hrefs.symm.subset List.mem_cons_self))
  refine h.update w { s.worker w with stack := st, ctl := .step } rfl ?_ ?_ ?_ ?_ ?_ ?_
  · refine ⟨hnd.2, ?_, ?_, ?_⟩
    · simpa [Worker.owns, hst, List.filterMap_cons, Frame.owns] using hok.owns_nodup
    · simpa [hst, pending] using hok.fifo
    · simpa [hst] using hok.keeps
  · exact fun t' ht' => hrefs.symm.subset (List.mem_cons_of_mem _ ht')
  · simp [Worker.owns, hst, List.filterMap_cons, Frame.owns]
  · exact fun f t' hf _ => Or.inl (hst ▸ List.mem_cons_of_mem _ hf)
  · intro t' ht'
    by_cases heq : t' = t
    · subst heq
      exact Or.inl (by simpa [advance, State.modify, State.go] using ht')
    · exact Or.inl (by simpa [advance, State.modify, State.go, heq] using ht')
  · intro t' hl hla
    by_cases heq : t' = t
    · subst heq
      exact Or.inr ⟨hnd.1, hgone⟩
    · exact Or.inl (by simpa [advance, State.modify, State.go, heq] using And.intro hl hla)

/-- A worker that looks for work has an empty queue. -/
theorem inv_seek {s : State W A V} (h : Inv s) (w : W) {l : Loop W A V} {r : Seek}
    {st : List (Frame W A V)} (hst : (s.worker w).stack = .seek l r :: st) :
    Inv (advance s w (.seek l r :: st)) := by
  have hok := h.ok w
  have hd := hok.deque_nil hst
  have live : ∀ t, (Frame.seek l r).owns = some t → (s.task t).live = true := by
    intro t ht
    refine h.owns_live w t ?_
    simp [Worker.owns, hst, ht]
  -- A turn to the next thing to look at touches nothing shared.
  have turn : ∀ r' ctl, Inv (s.go w (.seek l r' :: st) ctl) := by
    intro r' ctl
    refine h.replace w hst rfl ?_ (hd ▸ List.nil_prefix) ?_ ?_
    · cases l <;> rfl
    · simp [Frame.consumed]
    · simp
  -- The loop's check, its pop from an empty queue, and a steal that has found nothing.
  cases r with
  | check =>
    cases l with
    | idle =>
      simp only [advance]
      split
      · exact h.replace w hst rfl rfl (hd ▸ List.nil_prefix) (by simp [Frame.consumed]) (by simp)
      · exact turn _ _
    | help t ra k =>
      simp only [advance]
      split
      · rename_i hla
        refine h.replace w hst rfl rfl (hd ▸ List.nil_prefix) ?_ (by simp)
        intro t' ht'
        simp only [Frame.consumed, Option.some.injEq] at ht'
        subst ht'
        exact h.latch t (live t rfl) hla
      · exact turn _ _
    | drain | initDrain => exact turn _ _
  | pop =>
    simp only [advance, hd]
    exact turn _ _
  | steal =>
    cases l with
    | idle | help => exact turn _ _
    | drain =>
      exact h.go w hst (List.nil_sublist _) (List.nil_sublist _) (hd ▸ List.nil_prefix)
        (by simp) (by simp)
    | initDrain hs out =>
      exact h.replace w hst rfl rfl (hd ▸ List.nil_prefix) (by simp [Frame.consumed]) (by simp)

theorem inv_advance {s : State W A V} (h : Inv s) (w : W) :
    Inv (advance s w (s.worker w).stack) := by
  have hok := h.ok w
  -- The frame on top is what the worker is about to go on with.
  cases hst : (s.worker w).stack with
  | nil => exact h
  | cons f st =>
  have hfifo := hok.fifo
  rw [hst] at hfifo
  cases f with
  | pop t ra k => exact inv_pop h w hst
  | setLatch t => exact inv_setLatch h w hst
  | seek l r => exact inv_seek h w hst
  | pushBack t ra k x => exact absurd (hst ▸ List.mem_cons_self) (hok.keeps t ra k x)
  | call t k | catchUnwind k | run hs | init hs => exact h
  | inline t ra k | exec t =>
    simp only [advance]
    split
    · refine Inv.same (h.modify t _ ?_ ?_) w hst
      all_goals exact fun _ => rfl
    · exact h.same w hst
  | publish t r =>
    refine Inv.replace (h.modify t _ ?_ ?_) w hst rfl rfl hfifo (by simp [Frame.consumed]) (by simp)
    all_goals exact fun _ => rfl
  | take t ra k =>
    simp only [advance]
    split
    · refine Inv.leave_go (h.modify t _ ?_ ?_) w hst rfl ?_ hfifo
      · exact fun _ => rfl
      · exact fun _ => rfl
      · exact h.consumed w _ t (hst ▸ List.mem_cons_self) rfl
    · exact h.same w hst
  | finish hs out =>
    have hj : Inv (s.go w (.join hs out :: st) .step) :=
      h.replace w hst rfl rfl hfifo (by simp [Frame.consumed]) (by simp)
    exact hj.congr rfl rfl
  | join hs out =>
    cases hs with
    | nil =>
      have hd : (s.worker w).deque = [] := List.prefix_nil.mp hfifo
      exact h.go w hst (List.nil_sublist _) (List.nil_sublist _) (hd ▸ List.nil_prefix)
        (by simp) (by simp)
    | cons b hs =>
      simp only [advance]
      split
      · exact h.replace w hst rfl rfl hfifo (by simp [Frame.consumed]) (by simp)
      · exact h.replace w hst rfl rfl hfifo (by simp [Frame.consumed]) (by simp)

/-- A new call owns a task nobody can refer to yet. -/
theorem inv_call {s : State W A V} (h : Inv s) (w : W) (t : A) (hg : canCall s w t = true) :
    Inv (call s w t) := by
  unfold canCall at hg
  unfold call
  split
  -- The new task has one reference, in the own queue, and one frame, on top.
  case h_1 a b k hctl =>
    simp only [hctl, Bool.not_eq_true'] at hg
    have hr : ∀ w', t ∉ (s.worker w').refs := fun w' hmem => by
      have := h.safe w' t hmem
      rw [hg] at this
      exact Bool.false_ne_true this
    have ho : ∀ w', t ∉ (s.worker w').owns := fun w' hmem => by
      have := h.owns_live w' t hmem
      rw [hg] at this
      exact Bool.false_ne_true this
    have hok := h.ok w
    refine h.gain w
      { deque := t :: (s.worker w).deque
        stack := .call t k :: (s.worker w).stack
        ctl := .run a } t
      ?_ ?_ ?_ ?_ hr ?_ ?_ ?_ ?_ ?_
    · simp [State.go, State.setDeque, State.modify]
    · refine ⟨?_, ?_, ?_, ?_⟩
      · have hnd := List.nodup_cons.mpr ⟨hr w, hok.refs_nodup⟩
        simpa [Worker.refs, List.filterMap_cons, Frame.executes] using hnd
      · have hnd := List.nodup_cons.mpr ⟨ho w, hok.owns_nodup⟩
        simpa [Worker.owns, List.filterMap_cons, Frame.owns] using hnd
      · simpa [pending] using hok.fifo
      · simpa using hok.keeps
    · simp [Worker.refs, List.filterMap_cons, Frame.executes]
    · exact Or.inr ⟨by simp [Worker.owns, Frame.owns], ho⟩
    · intro f t' hf hft
      rcases List.mem_cons.mp hf with rfl | hmem
      · simp [Frame.consumed] at hft
      · exact hmem
    · intro w' f hf hft
      refine ho w' (List.mem_filterMap.mpr ⟨f, hf, ?_⟩)
      cases f <;> simp_all [Frame.consumed, Frame.owns]
    · intro t' ht'
      simp [State.go, State.setDeque, State.modify, ht']
    · simp [State.go, State.setDeque, State.modify, StackTask.new]
    · simp [State.go, State.setDeque, State.modify, StackTask.new]
  case h_2 => exact h

theorem inv_next {s : State W A V} (h : Inv s) (a : Action W A) (hg : enabled s a = true)
    (hc : LeavesConsumed s a) : Inv (next s a) := by
  cases a with
  | step w =>
      simp only [next, step]
      split
      case h_1 p _ => exact inv_start h w p
      case h_2 v _ => exact inv_ret h w v
      case h_3 hctl =>
        refine inv_unwind h w fun f st hst t hf => ?_
        simp only [LeavesConsumed, hctl, hst] at hc
        exact hc t hf
      case h_4 => exact inv_advance h w
      case h_5 | h_6 => exact h
  | call w t =>
      simp only [enabled, Bool.and_eq_true] at hg
      exact inv_call h w t hg.2
  | steal w v =>
      simp only [enabled, Bool.and_eq_true] at hg
      exact inv_steal h w v hg.2

/-- An unwound frame whose task is still referred to is a dangling
    reference. -/
theorem not_safe {s : State W A V} (a : Action W A) (hc : ¬ LeavesConsumed s a) :
    ¬ Safe (next s a) := by
  cases a with
  | call w t | steal w v => exact absurd trivial hc
  | step w =>
      simp only [LeavesConsumed] at hc
      split at hc
      case h_2 => exact absurd trivial hc
      case h_1 f st hctl hst =>
        push Not at hc
        obtain ⟨t, hf, w', ht⟩ := hc
        have hstep : next s (.step w) = (s.leave t).go w st .unwind := by
          simp only [next, step, hctl, hst]
          cases f with
          | call | pop | pushBack | inline | take =>
              simp only [Frame.owns, Option.some.injEq] at hf
              subst hf
              rfl
          | seek l r =>
              cases l with
              | help t' ra k =>
                  simp only [Frame.owns, Option.some.injEq] at hf
                  subst hf
                  rfl
              | idle | drain | initDrain => simp [Frame.owns] at hf
          | exec _ | publish _ _ | setLatch _ | catchUnwind _ | run _ | init _ | finish _ _
          | join _ _ => simp [Frame.owns] at hf
        -- The frame goes and the reference stays.
        have hx : f.executes = none := by
          cases f <;> simp_all [Frame.owns, Frame.executes]
        have hkept : t ∈ ((next s (.step w)).worker w').refs := by
          rw [hstep]
          by_cases hw : w' = w
          · subst hw
            simpa [State.go, State.leave, State.modify, Worker.refs, hst, List.filterMap_cons, hx]
              using ht
          · simpa [State.go, State.leave, State.modify, hw] using ht
        intro hsafe
        have hlive := hsafe w' t hkept
        rw [hstep] at hlive
        simp [State.go, State.leave, State.modify] at hlive

/-- From the start of the pool, for every program, any number of workers and
    any schedule: no task reference in a queue or being executed outlives its
    frame, exactly as long as every frame that a panic unwinds has its task
    consumed by then. -/
theorem safe_iff (s : State W A V) (w₀ : W) (handles : List W) (p : Prog V)
    (as : List (Action W A)) (hs : Started s w₀ handles p) (hl : system.Legal s as) :
    system.Throughout Safe s as ↔ system.Along LeavesConsumed s as := by
  refine system.throughout_iff_along (I := Inv) (fun s h => h.safe) ?_ ?_ as s (inv_started hs) hl
  · exact fun s a h hg hc => inv_next h a hg hc
  · exact fun s a _ _ hc => not_safe a hc

/-- A pool of two workers about to run `p`. -/
def twoWorkers (p : Prog Nat) : State Bool Nat Nat :=
  { task := fun _ => { latch := false, func := none, result := none, live := false }
    worker := fun w =>
      if w then { deque := [], stack := [.seek .idle .check], ctl := .step }
      else { deque := [], stack := [.run [true]], ctl := .run p }
    finished := false
    aborted := false }

theorem started_twoWorkers (p : Prog Nat) : Started (twoWorkers p) false [true] p := by
  refine ⟨by simp, Or.inl rfl, ?_, fun _ => rfl, rfl, rfl⟩
  intro w hw
  rw [ne_eq, Bool.not_eq_false] at hw
  subst hw
  rfl

/-- Worker 1 steals and finishes the second branch while worker 0 waits. -/
def stolenBranch : List (Action Bool Nat) :=
  [.call false 0, .step true, .step true, .steal true false, .step true, .step true, .step true,
    .step false, .step false, .step false, .step false, .step false, .step true, .step true,
    .step false, .step false, .step false, .step false]

theorem safe_iff_stolenBranch :
    system.Legal (twoWorkers (.parallelCall (.ret 1) (.ret 2) fun a b => .ret (a + b)))
        stolenBranch ∧
      (system.Throughout Safe
          (twoWorkers (.parallelCall (.ret 1) (.ret 2) fun a b => .ret (a + b))) stolenBranch ↔
        system.Along LeavesConsumed
          (twoWorkers (.parallelCall (.ret 1) (.ret 2) fun a b => .ret (a + b))) stolenBranch) :=
  ⟨by decide, safe_iff _ false [true] _ _ (started_twoWorkers _) (by decide)⟩

/-- The first branch panics; worker 1 then steals the second. -/
def panickingBranch : List (Action Bool Nat) :=
  [.call false 0, .step false, .step false, .step true, .step true, .steal true false]

/-- Worker 1 is about to run a closure in a frame that was unwound. -/
theorem panic_orphans_task :
    ∃ s : State Bool Nat Nat, system.Reachable s ∧ 0 ∈ (s.worker true).refs ∧
      (s.task 0).live = false ∧ ¬ Safe s := by
  have hrun := system.reachable_run panickingBranch
    (twoWorkers (.parallelCall .panic (.ret 2) fun a b => .ret (a + b)))
    ⟨false, [true], _, started_twoWorkers _⟩ (by decide)
  refine ⟨_, hrun, List.mem_cons_self, rfl, fun hsafe => ?_⟩
  exact Bool.false_ne_true (hsafe true 0 List.mem_cons_self)

end Scoped

end Cmpth

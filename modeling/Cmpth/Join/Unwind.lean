import Cmpth.Join.Call
import Cmpth.Join.Exit

/-!
# Leaving a Parallel Call

What becomes of `b` when the call is left.

Nothing that belongs to `b` is ever reclaimed twice. But there is one way to
leave that reclaims nothing: while `a` is pending the call has no handle yet,
and nothing in its place. The join word stays `RUNNING`, as if somebody held a
handle. So `b` runs to its end, stores its result, publishes `FINISHED` to
nobody, and its descriptor, its stack or frame and the result stay behind. In
every other case they are reclaimed, as soon as `b` comes to rest without being
stuck.

## Main definitions

* `consumed`: How often the body of a task at this point was consumed.
* `Inv`: The handle, the place of `b` and the counts fit the stage.

## Theorems

* `runs_of_not_has`, `Inv.not_caller`, `outside_of_woken`: Who has `b` at each stage.
* `kind_next`, `nothing_of_held`: What a step of the join leaves, and what a held handle has taken.
* `handle_task`: The task leaves a handle that is not being joined alone.
* `task_handle`: The handle's owner leaves the task where it is.
* `started_task`: A task that takes a step has started.
* `exiting_of_taken`: Nothing is taken or dropped before the task is done.
* `nothing_of_rest`: Nothing is taken or freed while the task has not come to its exit.
* `Inv.of_init`, `Inv.join_next`: The invariant at the beginning, and the join's.
* `Inv.not_has`: While the caller does not have `b`, the stage is none of those in which it runs it.
* `Inv.outside`: A step that leaves the call where it is, while the caller does not have `b`.
* `inv_dispatch`, `inv_task`, `inv_suspend`: The steps of `b`, and of whoever runs it.
* `Inv.advance`: The caller moves on without `b`, and has no handle yet.
* `inv_pop`, `inv_keep`, `inv_putBack`, `inv_inlineDone`, `inv_handle`, `inv_leave`: The steps of
  the caller.
* `inv_next`: Every action keeps the invariant.
* `inv_run`: Every run keeps the invariant.
* `stage_dispatch`, `stage_task`, `stage_suspend`, `stage_keep`, `stage_inlineDone`, `left_run`:
  What changes the stage of the call.
* `left_next`: A call that has been left stays so.
* `unwound_next`: One action leaves the call while `a` is pending.
* `unwound_iff`: A run has left the call so exactly if it has such a step.
* `Inv.atMostOnce`: Nothing is reclaimed twice.
* `Inv.eachOnce_iff`: What is reclaimed of a `b` at rest, once the call has been left.
* `reclaimed_iff`: What has been reclaimed of a `b` at rest.
* `reclaimed_iff_stolen`: A `b` that is stolen and joined.
* `unwound_leaks`: The runs of either kind that leak it.
-/

namespace Cmpth

namespace Join

namespace Call

variable {V P A : Type*}

/-- How often the closure or future of a task at this point was consumed: a
    thread reads its closure at once, a future is dropped at the end. -/
def consumed : Kind → TaskPc A → ℕ
  | .stackful, t => (started t).toNat
  | .async, t => t.exiting.toNat

/-- The caller has `b`. -/
def Stage.has : Stage → Bool
  | .popped | .inline | .left .inlined => true
  | .pending | .popping | .joining | .left .unwound | .left .joined => false

/-- The caller runs `b` itself, or has done so. -/
def Stage.runs : Stage → Bool
  | .inline | .left .inlined => true
  | .pending | .popping | .popped | .joining | .left .unwound | .left .joined => false

/-- There has been no handle. -/
def Stage.bare : Stage → Bool
  | .joining | .left .joined => false
  | .pending | .popping | .popped | .inline | .left .unwound | .left .inlined => true

/-- What is reclaimed before `b` is run in place. -/
def early : Kind → ℕ
  | .stackful => 1
  | .async => 0

/-- The handle, the place of `b` and the counts fit the stage. -/
structure Inv [DecidableEq A] (E : Encoding V P A) (s : State V P A) : Prop where
  join : Join.Inv E s.join ∧ ExitInv s.join
  held : s.stage.bare = true → s.join.handle = .held ∧ s.join.replaced = none
  gone : s.stage = .left .joined → s.join.handle = .gone ∧ s.join.replaced = none
  caller : s.place = .caller ↔ s.stage.has = true
  rests : s.place ≠ .out → s.join.task = .idle ∨ s.join.task = .running
  tasked : s.stage.runs = false → s.freed = 0 ∧ s.returned = 0 ∧
    s.bodies = consumed s.join.kind s.join.task ∧ s.made = s.join.task.exiting.toNat
  inline : s.stage = .inline → s.freed = early s.join.kind ∧ s.bodies = early s.join.kind ∧
    s.returned = 0 ∧ s.made = 0
  inlined : s.stage = .left .inlined → s.freed = 1 ∧ s.bodies = 1 ∧ s.returned = s.made ∧
    s.made ≤ 1

theorem runs_of_not_has {st : Stage} (h : st.has = false) : st.runs = false := by
  cases st with
  | inline => cases h
  | left how => cases how <;> first | rfl | cases h
  | pending | popping | popped | joining => rfl

section Join

variable [DecidableEq V] [DecidableEq A] {E : Encoding V P A} {j : Join.State V P A}
variable {a : Join.Action V P A}

theorem kind_next : (Join.next E j a).kind = j.kind := by
  change (effect E j a).kind = j.kind
  cases a with
  | handoffLoad | abandonedLoad | isFinished j | load op | loadWaker | exchange op cur spurious =>
      simp only [effect]
      split <;> first | rfl | (split <;> rfl)
  | write x | free x | dropWaker x => cases x <;> rfl
  | _ => rfl

/-- The task leaves a handle that is not being joined alone. -/
theorem handle_task (ha : ofTask a = true) (hh : j.handle = .held ∨ j.handle = .gone) :
    (Join.next E j a).handle = j.handle ∧ (Join.next E j a).replaced = j.replaced := by
  change (effect E j a).handle = j.handle ∧ (effect E j a).replaced = j.replaced
  cases a with
  | handoffLoad | abandonedLoad =>
      simp only [effect]
      split <;> exact ⟨rfl, rfl⟩
  | write x | free x | dropWaker x => cases x <;> exact ⟨rfl, rfl⟩
  | resume a =>
      refine ⟨?_, rfl⟩
      rcases hh with hh | hh <;> simp only [effect, hh]
  | pending | complete | commitFinished a | swap | wake b | claim a | dropResult p =>
      exact ⟨rfl, rfl⟩
  | _ => cases ha

/-- The handle's owner leaves the task where it is. -/
theorem task_handle {k : Kind} (ha : ofHandle k a = true) :
    (Join.next E j a).task = j.task := by
  change (effect E j a).task = j.task
  cases a with
  | isFinished j | load op | loadWaker | exchange op cur spurious =>
      simp only [effect]
      split <;> first | rfl | (split <;> rfl)
  | join _ | await _ | awaitForeign | abandon | box cur b | unbox b | dropReplaced b | take
  | reclaim => rfl
  | _ => cases ha

/-- A task that takes a step has started. -/
theorem started_task (ha : ofTask a = true) (hg : Join.guard E j a) :
    started j.task = true ∧ started (Join.next E j a).task = true := by
  change started j.task = true ∧ started (effect E j a).task = true
  -- The steps of a task are those after its beginning.
  cases a with
  | handoffLoad | abandonedLoad =>
      rw [show j.task = _ from hg]
      simp only [effect]
      refine ⟨rfl, ?_⟩
      split <;> rfl
  | write x | dropWaker x =>
      rw [show j.task = _ from hg]
      cases x <;> exact ⟨rfl, rfl⟩
  | free p =>
      rw [show j.task = _ from hg]
      refine ⟨rfl, ?_⟩
      cases p with
      | false => rfl
      | true => simp only [effect]; cases j.kind <;> rfl
  | pending =>
      rw [show j.task = _ from hg.1]
      exact ⟨rfl, rfl⟩
  | swap =>
      rw [show j.task = _ from hg]
      simp only [effect]
      refine ⟨rfl, ?_⟩
      cases E.decode j.word <;> first | rfl | (cases j.kind <;> rfl)
  | complete | resume a | wake b | claim a =>
      rw [show j.task = _ from hg]
      exact ⟨rfl, by simp only [effect]; cases j.kind <;> rfl⟩
  | commitFinished a | dropResult p =>
      rw [show j.task = _ from hg]
      exact ⟨rfl, rfl⟩
  | _ => cases ha

omit [DecidableEq V] in
/-- Nothing is taken or dropped before the task is done. -/
theorem exiting_of_taken (h : Join.Inv E j) (ht : j.takes ≠ []) : j.task.exiting = true := by
  rcases h with ⟨st, h⟩
  have hc := h.accounted
  cases htask : j.task with
  | idle | running | park =>
      rw [htask] at hc
      exact absurd hc.1 ht
  | dropWaker r =>
      rw [htask] at hc
      cases r with
      | true => rfl
      | false => exact absurd hc.1 ht
  | _ => rfl

omit [DecidableEq V] in
theorem nothing_of_held (h : Join.Inv E j) (hh : j.handle = .held) :
    j.takes = [] ∧ j.frees = [] := by
  rcases h with ⟨st, h⟩
  exact h.nothing_taken (by rw [hh]; rfl)

omit [DecidableEq V] in
/-- Nothing is taken or freed while the task has not come to its exit. -/
theorem nothing_of_rest (h : Join.Inv E j) (hh : j.handle = .gone)
    (ht : j.task = .idle ∨ j.task = .running) : j.takes = [] ∧ j.frees = [] := by
  rcases h with ⟨st, h⟩
  have hc := h.accounted
  rcases ht with ht | ht <;> rw [ht, hh] at hc <;> exact hc

end Join

variable [DecidableEq V] [DecidableEq A] {E : Encoding V P A} {s : State V P A}

omit [DecidableEq V] in
theorem Inv.of_init (h : init E s) : Inv E s := by
  obtain ⟨hj, hh, hst, hp, hf, hr, hb, hm⟩ := h
  have ht : s.join.task = .idle := hj.2.1
  -- Nothing is written, and the task has not been polled.
  constructor
  case join => exact ⟨Join.inv_init hj, exit_init hj⟩
  case held => exact fun _ => ⟨hh, hj.2.2.1⟩
  case gone =>
    intro hc
    rw [hst] at hc
    cases hc
  case caller =>
    rw [hst, hp]
    exact ⟨fun hc => (by cases hc), fun hc => (by cases hc)⟩
  case rests => exact fun _ => Or.inl ht
  case tasked =>
    intro _
    rw [hf, hr, hb, hm, ht]
    cases s.join.kind <;> exact ⟨rfl, rfl, rfl, rfl⟩
  case inline =>
    intro hc
    rw [hst] at hc
    cases hc
  case inlined =>
    intro hc
    rw [hst] at hc
    cases hc

omit [DecidableEq V] in
/-- While the caller does not have `b`, the stage is none of those in which it
    runs it. -/
theorem Inv.not_has (h : Inv E s) (hp : s.place ≠ .caller) : s.stage.has = false := by
  cases hh : s.stage.has with
  | false => rfl
  | true => exact absurd (h.caller.mpr hh) hp

omit [DecidableEq V] in
/-- A step that leaves the call where it is, while the caller does not have
    `b`. -/
theorem Inv.outside {s' : State V P A} (h : Inv E s) (hp : s.place ≠ .caller)
    (hp' : s'.place ≠ .caller) (hst : s'.stage = s.stage)
    (hj : Join.Inv E s'.join ∧ ExitInv s'.join)
    (hheld : s.stage.bare = true → s'.join.handle = .held ∧ s'.join.replaced = none)
    (hgone : s.stage = .left .joined → s'.join.handle = .gone ∧ s'.join.replaced = none)
    (hrests : s'.place ≠ .out → s'.join.task = .idle ∨ s'.join.task = .running)
    (hfreed : s'.freed = s.freed ∧ s'.returned = s.returned)
    (hcounts : s.bodies = consumed s.join.kind s.join.task →
      s.made = s.join.task.exiting.toNat →
      s'.bodies = consumed s'.join.kind s'.join.task ∧
        s'.made = s'.join.task.exiting.toNat) : Inv E s' := by
  have hhas := h.not_has hp
  have hruns := runs_of_not_has hhas
  -- The caller has nothing of `b`, so what is asked of an inline run is not asked.
  constructor
  case join => exact hj
  case held => rwa [hst]
  case gone => rwa [hst]
  case caller =>
    rw [hst, hhas]
    exact ⟨fun hc => absurd hc hp', fun hc => by cases hc⟩
  case rests => exact hrests
  case tasked =>
    intro _
    obtain ⟨hf, hr, hb, hm⟩ := h.tasked hruns
    exact ⟨hfreed.1.trans hf, hfreed.2.trans hr, hcounts hb hm⟩
  case inline =>
    intro hc
    rw [hst] at hc
    rw [hc] at hruns
    cases hruns
  case inlined =>
    intro hc
    rw [hst] at hc
    rw [hc] at hruns
    cases hruns

theorem Inv.join_next (h : Inv E s) {a : Join.Action V P A} (hg : Join.guard E s.join a) :
    Join.Inv E (Join.next E s.join a) ∧ ExitInv (Join.next E s.join a) :=
  ⟨Join.inv_next h.join.1 hg, exit_next h.join.2 hg⟩

omit [DecidableEq V] [DecidableEq A] in
theorem outside_of_woken (hg : s.place = .queued ∨ s.place = .suspended true) :
    s.place ≠ .caller ∧ s.place ≠ .out := by
  rcases hg with hg | hg <;> rw [hg] <;> exact ⟨by simp, by simp⟩

theorem inv_dispatch (h : Inv E s) (hg : guard E s .dispatch) : Inv E (next E s .dispatch) := by
  obtain ⟨hp, hout⟩ := outside_of_woken hg
  change Inv E (s.dispatch E)
  unfold State.dispatch
  -- The first dispatch calls the entry; a later one goes on where the task has stopped.
  split
  · rename_i ht hk
    refine h.outside hp (by simp) rfl (h.join_next ht) h.held h.gone
      (fun hc => absurd rfl hc) ⟨rfl, rfl⟩ ?_
    intro hb hm
    rw [ht, hk] at hb
    rw [ht] at hm
    change s.bodies + 1 = consumed s.join.kind .running ∧ s.made = 0
    rw [hk, hb]
    exact ⟨rfl, hm⟩
  · rename_i ht hk
    refine h.outside hp (by simp) rfl (h.join_next ht) h.held h.gone
      (fun hc => absurd rfl hc) ⟨rfl, rfl⟩ ?_
    intro hb hm
    rw [ht, hk] at hb
    rw [ht] at hm
    change s.bodies = consumed s.join.kind .running ∧ s.made = 0
    rw [hk]
    exact ⟨hb, hm⟩
  · exact h.outside hp (by simp) rfl h.join h.held h.gone (fun hc => absurd rfl hc) ⟨rfl, rfl⟩
      (fun hb hm => ⟨hb, hm⟩)

theorem inv_task (h : Inv E s) {a : Join.Action V P A} (hg : guard E s (.task a)) :
    Inv E (next E s (.task a)) := by
  obtain ⟨hp, ha, hj⟩ := hg
  obtain ⟨hs, hs'⟩ := started_task ha hj
  have hne : s.place ≠ .caller := by rw [hp]; simp
  -- A task's step leaves the handle as it is.
  have hheld : s.stage.bare = true →
      (Join.next E s.join a).handle = .held ∧ (Join.next E s.join a).replaced = none := by
    intro hb
    obtain ⟨hh, hr⟩ := h.held hb
    obtain ⟨hh', hr'⟩ := handle_task (E := E) ha (Or.inl hh)
    exact ⟨hh'.trans hh, hr'.trans hr⟩
  have hgone : s.stage = .left .joined →
      (Join.next E s.join a).handle = .gone ∧ (Join.next E s.join a).replaced = none := by
    intro hl
    obtain ⟨hh, hr⟩ := h.gone hl
    obtain ⟨hh', hr'⟩ := handle_task (E := E) ha (Or.inr hh)
    exact ⟨hh'.trans hh, hr'.trans hr⟩
  change Inv E (s.task E a)
  by_cases hc : a = .complete
  · -- The body is done: its result counts, and the future is dropped.
    subst hc
    have hex : s.join.task.exiting = false := by rw [show s.join.task = _ from hj]; rfl
    have hex' := exiting_complete (E := E) (s := s.join)
    have hk : (Join.next E s.join .complete).kind = s.join.kind := kind_next
    unfold State.task
    split
    · rename_i hkind
      refine h.outside hne hne rfl (h.join_next hj) hheld hgone (fun hn => absurd hp hn)
        ⟨rfl, rfl⟩ ?_
      intro hb hm
      rw [hkind] at hb
      change s.bodies = consumed (Join.next E s.join .complete).kind _ ∧ s.made + 1 = _
      rw [hk, hkind, hb, hm, consumed, consumed, hs, hs', hex, hex']
      exact ⟨rfl, rfl⟩
    · rename_i hkind
      refine h.outside hne hne rfl (h.join_next hj) hheld hgone (fun hn => absurd hp hn)
        ⟨rfl, rfl⟩ ?_
      intro hb hm
      rw [hkind] at hb
      change s.bodies + 1 = consumed (Join.next E s.join .complete).kind _ ∧ s.made + 1 = _
      rw [hk, hkind, hb, hm, consumed, consumed, hex, hex']
      exact ⟨rfl, rfl⟩
    · rename_i h1 h2
      cases hkind : s.join.kind with
      | stackful => exact (h1 rfl hkind).elim
      | async => exact (h2 rfl hkind).elim
  · have heq : s.task E a = { s with join := Join.next E s.join a } := by
      unfold State.task
      split
      · exact absurd rfl hc
      · exact absurd rfl hc
      · rfl
    rw [heq]
    have hk : (Join.next E s.join a).kind = s.join.kind := kind_next
    have hex := exiting_next (E := E) hj hc
    refine h.outside hne hne rfl (h.join_next hj) hheld hgone (fun hn => absurd hp hn)
      ⟨rfl, rfl⟩ ?_
    intro hb hm
    refine ⟨hb.trans ?_, hm.trans (by rw [hex])⟩
    rw [hk]
    cases s.join.kind with
    | stackful => rw [consumed, consumed, hs, hs']
    | async => rw [consumed, consumed, hex]

theorem inv_suspend (h : Inv E s) {w : Option Bool} (hg : guard E s (.suspend w)) :
    Inv E (next E s (.suspend w)) := by
  obtain ⟨hp, ht⟩ := hg
  have hne : s.place ≠ .caller := by rw [hp]; simp
  have hne' : (w.elim .queued .suspended : Place) ≠ .caller := by cases w <;> simp
  change Inv E (s.suspend E w)
  unfold State.suspend
  -- An async task parks by a step of its own; of a thread nothing changes but its place.
  split
  · rename_i hpark
    refine h.outside hne hne' rfl (h.join_next hpark) h.held h.gone (fun _ => Or.inl rfl)
      ⟨rfl, rfl⟩ ?_
    intro hb hm
    rw [hpark] at hb hm
    have hk : s.join.kind = .async := by
      have hw := h.join.2.within
      rw [hpark] at hw
      exact eq_of_beq hw
    rw [hk] at hb
    change s.bodies = consumed s.join.kind .idle ∧ s.made = 0
    rw [hk]
    exact ⟨hb, hm⟩
  · rename_i hpark
    have hrun : s.join.task = .running := by
      rcases ht with ht | ht
      · exact absurd ht hpark
      · exact ht.2
    exact h.outside hne hne' rfl h.join h.held h.gone (fun _ => Or.inr hrun) ⟨rfl, rfl⟩
      (fun hb hm => ⟨hb, hm⟩)

omit [DecidableEq V] in
/-- The caller moves on without `b`, and has no handle yet. -/
theorem Inv.advance (h : Inv E s) (hb : s.stage.bare = true) (hp : s.place ≠ .caller) {st : Stage}
    (hhas : st.has = false) (hst : st ≠ .left .joined) : Inv E { s with stage := st } := by
  have hruns := runs_of_not_has hhas
  constructor
  case join => exact h.join
  case held => exact fun _ => h.held hb
  case gone => exact fun hc => absurd hc hst
  case caller => exact ⟨fun hc => absurd hc hp, fun hc => absurd (hhas.symm.trans hc) (by simp)⟩
  case rests => exact h.rests
  case tasked => exact fun _ => h.tasked (runs_of_not_has (h.not_has hp))
  case inline =>
    intro hc
    rw [show st = _ from hc] at hruns
    cases hruns
  case inlined =>
    intro hc
    rw [show st = _ from hc] at hruns
    cases hruns

omit [DecidableEq V] in
theorem Inv.not_caller (h : Inv E s) (hhas : s.stage.has = false) : s.place ≠ .caller := by
  intro hp
  exact absurd (hhas.symm.trans (h.caller.mp hp)) (by simp)

theorem inv_pop (h : Inv E s) {hit : Bool} (hg : guard E s (.pop hit)) :
    Inv E (next E s (.pop hit)) := by
  obtain ⟨hst, hq⟩ := hg
  have hhas : s.stage.has = false := by rw [hst]; rfl
  have hruns : s.stage.runs = false := by rw [hst]; rfl
  have hbare : s.stage.bare = true := by rw [hst]; rfl
  cases hit with
  | false => exact h.advance hbare (h.not_caller hhas) rfl (by simp)
  | true =>
      have hout : s.place ≠ .out := by rw [hq rfl]; simp
      constructor
      case join => exact h.join
      case held => exact fun _ => h.held hbare
      case gone => exact fun hc => by cases hc
      case caller => exact ⟨fun _ => rfl, fun _ => rfl⟩
      case rests => exact fun _ => h.rests hout
      case tasked => exact fun _ => h.tasked hruns
      case inline => exact fun hc => by cases hc
      case inlined => exact fun hc => by cases hc

theorem inv_keep (h : Inv E s) (hg : guard E s .keep) : Inv E (next E s .keep) := by
  obtain ⟨hst, hidle⟩ := hg
  have hheld := h.held (by rw [hst]; rfl)
  have hp : s.place = .caller := h.caller.mpr (by rw [hst]; rfl)
  have hout : s.place ≠ .out := by rw [hp]; simp
  obtain ⟨hf, hr, hb, hm⟩ := h.tasked (by rw [hst]; rfl)
  -- A thread has not started, and a future in a queue is not done.
  have hzero : s.bodies = 0 ∧ s.made = 0 := by
    cases hk : s.join.kind with
    | stackful =>
        rw [hk, hidle hk] at hb
        rw [hidle hk] at hm
        exact ⟨hb, hm⟩
    | async =>
        rw [hk] at hb
        rcases h.rests hout with ht | ht <;> rw [ht] at hb hm <;> exact ⟨hb, hm⟩
  change Inv E s.keep
  unfold State.keep
  cases hk : s.join.kind <;>
  · constructor
    case join => exact h.join
    case held => exact fun _ => hheld
    case gone => exact fun hc => by cases hc
    case caller => exact ⟨fun _ => rfl, fun _ => hp⟩
    case rests => exact fun _ => h.rests hout
    case tasked => exact fun hc => by cases hc
    case inline =>
      intro _
      simp only [hk, early, hf, hr, hzero.1, hzero.2, and_self]
    case inlined => exact fun hc => by cases hc

theorem inv_putBack (h : Inv E s) (hg : guard E s .putBack) : Inv E (next E s .putBack) := by
  have hp : s.place = .caller := h.caller.mpr (by rw [hg.1]; rfl)
  constructor
  case join => exact h.join
  case held => exact fun hc => by cases hc
  case gone => exact fun hc => by cases hc
  case caller => exact ⟨fun hc => (by cases hc), fun hc => (by cases hc)⟩
  case rests => exact fun _ => h.rests (by rw [hp]; simp)
  case tasked => exact fun _ => h.tasked (by rw [hg.1]; rfl)
  case inline => exact fun hc => by cases hc
  case inlined => exact fun hc => by cases hc

theorem inv_inlineDone (h : Inv E s) {ok : Bool} (hg : guard E s (.inlineDone ok)) :
    Inv E (next E s (.inlineDone ok)) := by
  have hst : s.stage = .inline := hg
  have hheld := h.held (by rw [hst]; rfl)
  have hp : s.place = .caller := h.caller.mpr (by rw [hst]; rfl)
  obtain ⟨hf, hb, hr, hm⟩ := h.inline hst
  have hok : ok.toNat ≤ 1 := Bool.toNat_le ok
  change Inv E (s.inlineDone ok)
  unfold State.inlineDone
  -- A thread's frame is freed here, a task's with its future.
  cases hk : s.join.kind <;> rw [hk] at hf hb <;>
  · constructor
    case join => exact h.join
    case held => exact fun _ => hheld
    case gone => exact fun hc => by cases hc
    case caller => exact ⟨fun _ => rfl, fun _ => hp⟩
    case rests => exact fun _ => h.rests (by rw [hp]; simp)
    case tasked => exact fun hc => by cases hc
    case inline => exact fun hc => by cases hc
    case inlined =>
      intro _
      simp only [hf, hb, hr, hm, early, Nat.zero_add, true_and]
      exact hok

theorem inv_handle (h : Inv E s) {a : Join.Action V P A} (hg : guard E s (.handle a)) :
    Inv E (next E s (.handle a)) := by
  obtain ⟨hst, ha, hj⟩ := hg
  have hp := h.not_caller (by rw [hst]; rfl)
  -- The task is where it was.
  have ht : (Join.next E s.join a).task = s.join.task := task_handle ha
  have hk : (Join.next E s.join a).kind = s.join.kind := kind_next
  change Inv E { s with join := Join.next E s.join a }
  refine h.outside hp hp rfl (h.join_next hj) ?_ ?_ ?_ ⟨rfl, rfl⟩ ?_
  · intro hc
    rw [hst] at hc
    cases hc
  · intro hc
    rw [hst] at hc
    cases hc
  · intro hout
    change (Join.next E s.join a).task = .idle ∨ (Join.next E s.join a).task = .running
    rw [ht]
    exact h.rests hout
  · intro hb hm
    change s.bodies = consumed (Join.next E s.join a).kind (Join.next E s.join a).task ∧
      s.made = (Join.next E s.join a).task.exiting.toNat
    rw [ht, hk]
    exact ⟨hb, hm⟩

theorem inv_leave (h : Inv E s) (hg : guard E s .leave) : Inv E (next E s .leave) := by
  obtain ⟨hst, hgone⟩ := hg
  have hp := h.not_caller (by rw [hst]; rfl)
  constructor
  case join => exact h.join
  case held => exact fun hc => by cases hc
  case gone => exact fun _ => hgone
  case caller => exact ⟨fun hc => absurd hc hp, fun hc => by cases hc⟩
  case rests => exact h.rests
  case tasked => exact fun _ => h.tasked (by rw [hst]; rfl)
  case inline => exact fun hc => by cases hc
  case inlined => exact fun hc => by cases hc

theorem inv_next {a : Action V P A} (h : Inv E s) (hg : guard E s a) : Inv E (next E s a) := by
  cases a with
  | dispatch => exact inv_dispatch h hg
  | task a => exact inv_task h hg
  | suspend w => exact inv_suspend h hg
  | wake | forget =>
      obtain ⟨hp, hout⟩ := outside_of_woken (Or.inr hg)
      exact h.outside hp (by simp [next]) rfl h.join h.held h.gone (fun _ => h.rests hout)
        ⟨rfl, rfl⟩ (fun hb hm => ⟨hb, hm⟩)
  | unwind | aReturns =>
      have hst : s.stage = .pending := hg
      exact h.advance (by rw [hst]; rfl) (h.not_caller (by rw [hst]; rfl)) rfl (by simp)
  | pop hit => exact inv_pop h hg
  | keep => exact inv_keep h hg
  | putBack => exact inv_putBack h hg
  | inlineDone ok => exact inv_inlineDone h hg
  | handle a => exact inv_handle h hg
  | leave => exact inv_leave h hg

theorem inv_run (as : List (Action V P A)) :
    ∀ s : State V P A, Inv E s → (system E).Legal s as → Inv E ((system E).run s as) := by
  induction as with
  | nil => exact fun s h _ => h
  | cons a as ih =>
      intro s h hl
      exact ih _ (inv_next h hl.1) hl.2

@[simp] theorem stage_dispatch : (s.dispatch E).stage = s.stage := by
  unfold State.dispatch
  split <;> rfl

@[simp] theorem stage_task (a : Join.Action V P A) : (s.task E a).stage = s.stage := by
  unfold State.task
  split <;> rfl

@[simp] theorem stage_suspend (w : Option Bool) : (s.suspend E w).stage = s.stage := by
  unfold State.suspend
  split <;> rfl

omit [DecidableEq V] [DecidableEq A] in
@[simp] theorem stage_keep : s.keep.stage = .inline := by
  unfold State.keep
  split <;> rfl

omit [DecidableEq V] [DecidableEq A] in
@[simp] theorem stage_inlineDone (ok : Bool) : (s.inlineDone ok).stage = .left .inlined := by
  unfold State.inlineDone
  dsimp only
  split <;> rfl

/-- A call that has been left stays so. -/
theorem left_next {a : Action V P A} {how : Exit} (hs : s.stage = .left how)
    (hg : guard E s a) : (next E s a).stage = .left how := by
  cases a with
  | dispatch | task a | suspend w => simp [next, hs]
  | wake | forget | handle a => exact hs
  | unwind | aReturns | inlineDone ok =>
      rw [show s.stage = _ from hg] at hs
      cases hs
  | pop hit | keep | putBack | leave =>
      rw [hg.1] at hs
      cases hs

theorem left_run (as : List (Action V P A)) {how : Exit} :
    ∀ s : State V P A, s.stage = .left how → (system E).Legal s as →
      ((system E).run s as).stage = .left how := by
  induction as with
  | nil => exact fun s hs _ => hs
  | cons a as ih =>
      intro s hs hl
      exact ih _ (left_next hs hl.1) hl.2

/-- One action leaves the call while `a` is pending. -/
theorem unwound_next {a : Action V P A} (hs : s.stage ≠ .left .unwound) :
    (next E s a).stage = .left .unwound ↔ ¬ Kept s a := by
  cases a with
  | unwind => simp [next, Kept]
  | pop hit => cases hit <;> simp [next, Kept]
  | dispatch | task a | suspend w | keep | inlineDone ok => simp [next, Kept, hs]
  | wake | forget | aReturns | putBack | handle a | leave => simp [next, Kept, hs]

/-- A run has left the call while `a` was pending if it has a step that does
    so. -/
theorem unwound_iff (as : List (Action V P A)) :
    ∀ s : State V P A, s.stage ≠ .left .unwound → (system E).Legal s as →
      (((system E).run s as).stage = .left .unwound ↔ ¬ (system E).Along Kept s as) := by
  induction as with
  | nil =>
      intro s hs _
      exact ⟨fun h => absurd h hs, fun h => absurd trivial h⟩
  | cons a as ih =>
      intro s hs hl
      by_cases hk : Kept s a
      · have hn : (next E s a).stage ≠ .left .unwound := fun h => (unwound_next hs).mp h hk
        exact (ih _ hn hl.2).trans
          ⟨fun h hc => h hc.2, fun h hc => h ⟨hk, hc⟩⟩
      · have hn : (next E s a).stage = .left .unwound := (unwound_next hs).mpr hk
        exact ⟨fun _ hc => hk hc.1, fun _ => left_run as _ hn hl.2⟩

omit [DecidableEq V] in
/-- Nothing is reclaimed twice. -/
theorem Inv.atMostOnce (h : Inv E s) : AtMostOnce s := by
  cases hruns : s.stage.runs with
  | false =>
      obtain ⟨hf, hr, hb, hm⟩ := h.tasked hruns
      have hside : s.join.takes.length ≤ 1 ∧ s.join.frees.length ≤ 1 := by
        obtain ⟨st, hat⟩ := h.join.1
        rcases hat.accounted.one_side with ⟨ht, hfr⟩ | ⟨side, ht, hfr | hfr⟩ <;>
          rw [ht, hfr] <;> simp
      have htaken : s.join.takes.length ≤ s.made := by
        by_cases ht : s.join.takes = []
        · rw [ht]
          exact Nat.zero_le _
        · rw [hm, exiting_of_taken h.join.1 ht]
          exact hside.1
      refine ⟨?_, ?_, ?_, ?_⟩
      · rw [State.frees, hf]
        exact hside.2
      · rw [hb]
        cases s.join.kind <;> exact Bool.toNat_le _
      · rw [State.takes, hr]
        exact htaken
      · rw [hm]
        exact Bool.toNat_le _
  | true =>
      -- The handle is as if held, so the join word has reclaimed nothing.
      have hbare : s.stage.bare = true := by
        cases hst : s.stage with
        | left how => rw [hst] at hruns; cases how <;> first | rfl | cases hruns
        | inline => rfl
        | pending | popping | popped | joining => rw [hst] at hruns; cases hruns
      obtain ⟨ht, hfr⟩ := nothing_of_held h.join.1 (h.held hbare).1
      rw [AtMostOnce, State.frees, State.takes, ht, hfr]
      cases hst : s.stage with
      | left how =>
          rw [hst] at hruns
          cases how with
          | inlined =>
              obtain ⟨hf, hb, hr, hm⟩ := h.inlined hst
              rw [hf, hb, hr]
              simpa using hm
          | unwound | joined => cases hruns
      | inline =>
          obtain ⟨hf, hb, hr, hm⟩ := h.inline hst
          rw [hf, hb, hr, hm]
          cases s.join.kind <;> simp [early]
      | pending | popping | popped | joining => rw [hst] at hruns; cases hruns

omit [DecidableEq V] in
/-- What is reclaimed of a `b` at rest, once the call has been left. -/
theorem Inv.eachOnce_iff (h : Inv E s) {how : Exit} (hst : s.stage = .left how)
    (hrest : AtRest s) : EachOnce s ↔ how ≠ .unwound ∧ ¬ Stuck s := by
  have hp := h.caller
  rw [hst] at hp
  cases how with
  | unwound =>
      obtain ⟨-, hfr⟩ := nothing_of_held h.join.1 (h.held (by rw [hst]; rfl)).1
      obtain ⟨hf, -⟩ := h.tasked (by rw [hst]; rfl)
      refine ⟨fun he => ?_, fun hc => absurd rfl hc.1⟩
      have he1 := he.1
      rw [State.frees, hfr, hf] at he1
      cases he1
  | inlined =>
      obtain ⟨ht, hfr⟩ := nothing_of_held h.join.1 (h.held (by rw [hst]; rfl)).1
      obtain ⟨hf, hb, hr, -⟩ := h.inlined hst
      have hplace : s.place = .caller := hp.mpr rfl
      refine ⟨fun _ => ⟨by simp, by rw [Stuck, hplace]; simp⟩, fun _ => ?_⟩
      rw [EachOnce, State.frees, State.takes, ht, hfr, hf, hb, hr]
      simp
  | joined =>
      obtain ⟨hf, hr, hb, hm⟩ := h.tasked (by rw [hst]; rfl)
      obtain ⟨hgone, hrep⟩ := h.gone hst
      have hncaller : s.place ≠ .caller := fun hc => by cases hp.mp hc
      unfold AtRest at hrest
      cases hplace : s.place with
      | caller => exact absurd hplace hncaller
      | queued => rw [hplace] at hrest; exact hrest.elim
      | suspended w =>
          -- Nobody reclaims a task that has not come to its end.
          obtain ⟨-, hfr⟩ := nothing_of_rest h.join.1 hgone (h.rests (by rw [hplace]; simp))
          rw [hplace] at hrest
          cases w with
          | true => exact hrest.elim
          | false =>
              refine ⟨fun he => ?_, fun hc => absurd hplace hc.2⟩
              have he1 := he.1
              rw [State.frees, hfr, hf] at he1
              cases he1
      | out =>
          rw [hplace] at hrest
          obtain ⟨p, hdone⟩ := hrest
          obtain ⟨st, hat⟩ := h.join.1
          obtain ⟨side, ht, hfr⟩ := hat.reclaimed ⟨⟨p, hdone⟩, hgone, hrep⟩
          refine ⟨fun _ => ⟨by simp, by rw [Stuck, hplace]; simp⟩, fun _ => ?_⟩
          rw [EachOnce, State.frees, State.takes, ht, hfr, hf, hb, hr, hm, hdone]
          cases s.join.kind <;> simp [consumed, started, TaskPc.exiting]

/-- For every run of either kind of call: nothing of `b` is reclaimed twice;
    and when the call has been left and `b` is at rest, everything is reclaimed
    once exactly if the call was not left while `a` was pending and `b` is not
    stuck. -/
theorem reclaimed_iff (s : State V P A) (as : List (Action V P A)) (hi : init E s)
    (hl : (system E).Legal s as) :
    AtMostOnce ((system E).run s as) ∧
      (Left ((system E).run s as) → AtRest ((system E).run s as) →
        (EachOnce ((system E).run s as) ↔
          (system E).Along Kept s as ∧ ¬ Stuck ((system E).run s as))) := by
  have hinv := inv_run as s (Inv.of_init hi) hl
  refine ⟨hinv.atMostOnce, ?_⟩
  rintro ⟨how, hst⟩ hrest
  have hstart : s.stage ≠ .left .unwound := by
    rw [hi.2.2.1]
    simp
  have hway := unwound_iff as s hstart hl
  rw [hst] at hway
  have hkept : how ≠ .unwound ↔ (system E).Along Kept s as := by
    rw [Stage.left.injEq] at hway
    exact (not_congr hway).trans not_not
  exact (hinv.eachOnce_iff hst hrest).trans (and_congr_left' hkept)

/-- A call that has pushed `b`. -/
def start (k : Kind) : State Word Ptr Word where
  join := Join.start k
  stage := .pending
  place := .queued
  freed := 0
  returned := 0
  bodies := 0
  made := 0

theorem init_start (k : Kind) : init wordEncoding (start k) :=
  ⟨Join.init_start k, rfl, rfl, rfl, rfl, rfl, rfl, rfl⟩

/-- `b` is stolen and done before the caller, which joins it. -/
def stolenRun : List (Action Word Ptr Word) :=
  [.dispatch, .task .complete, .task .handoffLoad, .task .abandonedLoad, .task (.write none),
    .task .swap, .aReturns, .pop false, .handle (.join boxAddr), .handle (.isFinished boxAddr),
    .handle .take, .handle .reclaim, .leave]

theorem reclaimed_iff_stolen :
    EachOnce ((system wordEncoding).run (start .stackful) stolenRun) := by
  have hl : (system wordEncoding).Legal (start .stackful) stolenRun := by decide +kernel
  have h := (reclaimed_iff (start .stackful) stolenRun (init_start .stackful) hl).2
    ⟨.joined, by decide +kernel⟩ ⟨true, by decide +kernel⟩
  exact h.mpr ⟨by simp [System.Along, stolenRun, Kept], by unfold Stuck; decide +kernel⟩

/-- `a` panics while `b` is queued, and `b` is stolen later on. -/
def panicRun : List (Action Word Ptr Word) :=
  [.unwind, .dispatch, .task .complete, .task .handoffLoad, .task .abandonedLoad,
    .task (.write none), .task .swap]

/-- The future is dropped while `b` is being polled elsewhere. -/
def cancelRun : List (Action Word Ptr Word) :=
  [.dispatch, .unwind, .task .complete, .task (.write none), .task .swap,
    .task (.dropWaker true)]

/-- Both calls have been left and `b` has run to its end, and nobody has
    reclaimed its descriptor and its result, nor ever will. -/
theorem unwound_leaks :
    ((system wordEncoding).Legal (start .stackful) panicRun ∧
      Left ((system wordEncoding).run (start .stackful) panicRun) ∧
      AtRest ((system wordEncoding).run (start .stackful) panicRun) ∧
      ¬ EachOnce ((system wordEncoding).run (start .stackful) panicRun)) ∧
    (system wordEncoding).Legal (start .async) cancelRun ∧
      Left ((system wordEncoding).run (start .async) cancelRun) ∧
      AtRest ((system wordEncoding).run (start .async) cancelRun) ∧
      ¬ EachOnce ((system wordEncoding).run (start .async) cancelRun) := by
  refine ⟨⟨by decide +kernel, ⟨.unwound, by decide +kernel⟩, ⟨true, by decide +kernel⟩, ?_⟩,
    by decide +kernel, ⟨.unwound, by decide +kernel⟩, ⟨true, by decide +kernel⟩, ?_⟩
  · exact fun h => absurd h.1 (by decide +kernel)
  · exact fun h => absurd h.1 (by decide +kernel)

end Call

end Join

end Cmpth

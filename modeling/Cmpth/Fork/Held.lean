import Cmpth.Fork.Tokens

/-!
# What a Call Holds

The invariant of the parallel calls.

As long as `b` is a thread whose join is not over, its descriptor is in use for
it and for nothing else. Until it is started its context is the one that was
made, and its token is in a run queue or in the hands of somebody who has popped
it; afterwards its saved context is another. So what the caller compares tells
the two apart. When the caller has given the descriptor back, its worker does
nothing before it reads the closure, and nobody else can be given the memory.

## Main definitions

* `Owns`: The descriptor of the call is its `b`'s.
* `SpotOk`: The context and the place of `b` say whether it was started.
* `Tasked`, `Freed`, `Result`: What holds while `b` is a thread, after the
  descriptor is freed, and when the result has been taken.
* `Inv`: The invariant.

## Theorems

* `CallInv.tasked`: While the descriptor is owned, `b` is a thread.
* `CallInv.not_gone`: As long as the descriptor is `b`'s, the handle is there.
* `callInv_joining`: What holds of a call that joins its `b`.
* `Inv.branch`: The `b` that a descriptor is in use for.
* `Inv.cur_iff`: A worker runs the thread whose token it has.
* `Inv.cur_inj`: A thread runs on one worker only.
* `Inv.in_use`: What has a token is a thread.
* `SpotOk.carry`: A token that is not on a worker may be queued or held.
* `SpotOk.run`: A started thread may run.
* `SpotOk.started`: A thread that runs has been started, and is not gone.
* `SpotOk.suspend`: A thread that runs may be suspended anywhere with another context.
* `spot_update`: The token of `b` goes to another place.
* `Tasked.transfer`: `b` is a thread as before when only other things change.
* `CallInv.retask`: A step of `b` leaves the caller where it is.
* `CallInv.frame`: What another call's step must leave alone.
* `Freed.frame`: No other worker's step gets at freed memory.
* `Inv.assemble`: The parts of a step: the tokens, the descriptors, and the calls that it is about
  and those that it leaves alone.
* `OnTop.unique`: A worker has one innermost call.
* `not_tops_of_none`, `not_tops_of_nil`, `not_tops_of_coding`: Where a worker is not in a call.
* `not_tops_of_userCode`: A worker that runs user code is not about to read a closure.
-/

namespace Cmpth

namespace Fork

open Join (TaskPc HandlePc JoinState)

variable {K W D C R : Type*}

/-- The descriptor of the call is in use for its `b`. -/
def Owns (c : Call W D C R) : Prop :=
  match c.stage with
  | .pending | .popping _ | .popped .. | .unwound => True
  | .joining .. => c.join.handle ≠ .gone
  | .unmade | .freed _ | .inline _ | .returned .. => False

/-- A `b` that has not been started has the context that was made for it and is
    in a queue or popped. A started one that is suspended has another. One that
    has exited is nowhere. -/
structure SpotOk (c : Call W D C R) (x : C) (q : Option (Spot K W)) : Prop where
  idle : c.join.task = .idle → x = c.fresh ∧ ((∃ w, q = some (.queued w)) ∨ ∃ k, q = some (.held k))
  saved : c.join.task ≠ .idle → q ≠ none → (∀ w, q ≠ some (.on w)) → x ≠ c.fresh
  done : ∀ p, c.join.task = .done p → q = none

/-- `b` is a thread, and its join is not over. -/
structure Tasked [DecidableEq D] (s : State K W D C R) (place : D → Option (Spot K W)) (k : K) :
    Prop where
  body : s.body (s.call k).desc = .branch k
  join : Join.Inv (words D) (s.call k).join
  sync : Sync (s.call k).join
  spot : SpotOk (s.call k) (s.ctx (s.call k).desc) (place (s.call k).desc)
  fresh : (s.call k).join.task = .idle →
    s.closure (s.call k).desc = some k ∧ (s.call k).runs = []
  started : (s.call k).join.task ≠ .idle → ∃ w, (s.call k).runs = [some w]
  value : (s.call k).join.task.exiting = true → (s.call k).bVal ≠ none
  slot : (s.call k).join.written = true →
    (s.call k).join.task.exiting = true ∧ (s.call k).slot = (s.call k).bVal

/-- The worker runs the thread, whose innermost call is this one. -/
def Tops (s : State K W D C R) (w : W) (k : K) : Prop :=
  ∃ u, OnTop s w u k

/-- The descriptor is freed, and the memory is with the worker that is about to
    read the closure in it. -/
structure Freed (s : State K W D C R) (k : K) : Prop where
  body : s.body (s.call k).desc = .free
  closure : s.closure (s.call k).desc = some k
  runs : (s.call k).runs = []
  worker : ∃ w, Tops s w k ∧ s.pool (s.call k).desc = some w

/-- The result that has been taken is that of the one run of `b`. -/
def Result (c : Call W D C R) (rb : Option R) : Prop :=
  rb = c.bVal ∧ c.bVal ≠ none ∧ ∃ r, c.runs = [r]

/-- What holds of a call at its stage. -/
def CallInv [DecidableEq D] (s : State K W D C R) (place : D → Option (Spot K W)) (k : K) : Prop :=
  match (s.call k).stage with
  | .unmade => (s.call k).join.handle = .held
  | .pending | .unwound => Tasked s place k ∧ (s.call k).join.handle = .held
  | .popping ra | .popped ra _ =>
      Tasked s place k ∧ (s.call k).join.handle = .held ∧ (s.call k).aVal = some ra
  | .freed ra => Freed s k ∧ (s.call k).join.handle = .held ∧ (s.call k).aVal = some ra
  | .inline ra =>
      (s.call k).runs = [none] ∧ (s.call k).join.handle = .held ∧ (s.call k).aVal = some ra
  | .joining ra rb =>
      ((s.call k).join.handle ≠ .gone → Tasked s place k) ∧ (s.call k).aVal = some ra ∧
        ((s.call k).join.handle = .reclaim ∨ (s.call k).join.handle = .gone →
          Result (s.call k) rb)
  | .returned ra rb => Result (s.call k) rb ∧ (s.call k).aVal = some ra

/-- The tokens, the descriptors and the calls fit together. -/
structure Inv [DecidableEq D] (s : State K W D C R) (place : D → Option (Spot K W)) : Prop where
  placed : Placed (tokens s) place
  owned : ∀ d k, s.body d = .branch k → (s.call k).desc = d ∧ Owns (s.call k)
  empty : ∀ d, s.body d = .free ∨ s.body d = .exited → place d = none
  calls : ∀ k, CallInv s place k

variable [DecidableEq D] {s s' : State K W D C R} {place place' : D → Option (Spot K W)}
variable {k : K} {d : D}

theorem CallInv.tasked (h : CallInv s place k) (ho : Owns (s.call k)) : Tasked s place k := by
  unfold CallInv at h
  unfold Owns at ho
  cases hst : (s.call k).stage with
  | unmade | freed ra | inline ra | returned ra rb =>
      rw [hst] at ho
      exact ho.elim
  | pending | popping ra | popped ra d | unwound =>
      rw [hst] at h
      exact h.1
  | joining ra rb =>
      rw [hst] at h ho
      exact h.1 ho

/-- As long as the descriptor is `b`'s, the handle is there. -/
theorem CallInv.not_gone (h : CallInv s place k) (ho : Owns (s.call k)) :
    (s.call k).join.handle ≠ .gone := by
  unfold CallInv at h
  unfold Owns at ho
  intro hg
  cases hst : (s.call k).stage with
  | unmade | freed ra | inline ra | returned ra rb =>
      rw [hst] at ho
      exact ho.elim
  | pending | unwound =>
      rw [hst] at h
      exact absurd (h.2.symm.trans hg) (by simp)
  | popping ra | popped ra d =>
      rw [hst] at h
      exact absurd (h.2.1.symm.trans hg) (by simp)
  | joining ra rb =>
      rw [hst] at ho
      exact ho hg

/-- What holds of a call that joins its `b`. -/
theorem callInv_joining {ra : R} {rb : Option R} (hst : (s.call k).stage = .joining ra rb) :
    CallInv s place k ↔
      ((s.call k).join.handle ≠ .gone → Tasked s place k) ∧ (s.call k).aVal = some ra ∧
        ((s.call k).join.handle = .reclaim ∨ (s.call k).join.handle = .gone →
          Result (s.call k) rb) := by
  unfold CallInv
  rw [hst]

/-- The `b` that a descriptor is in use for. -/
theorem Inv.branch (h : Inv s place) (hd : s.body d = .branch k) :
    (s.call k).desc = d ∧ Tasked s place k := by
  obtain ⟨hdesc, ho⟩ := h.owned d k hd
  exact ⟨hdesc, (h.calls k).tasked ho⟩

theorem Inv.cur_iff (h : Inv s place) {w : W} : s.cur w = some d ↔ place d = some (.on w) := by
  rw [← h.placed.mem, tokens, Option.mem_toList]

/-- A thread runs on one worker only. -/
theorem Inv.cur_inj (h : Inv s place) {w w' : W} (hw : s.cur w = some d) (hw' : s.cur w' = some d) :
    w = w' := by
  have he := (h.cur_iff.mp hw).symm.trans (h.cur_iff.mp hw')
  simpa using he

/-- What has a token is a thread. -/
theorem Inv.in_use (h : Inv s place) {x : Spot K W} (hx : place d = some x) :
    s.body d ≠ .free ∧ s.body d ≠ .exited := by
  constructor <;>
  · intro hb
    rw [h.empty d (by simp [hb])] at hx
    cases hx

omit [DecidableEq D] in
/-- A token that is not on a worker may be queued or held. -/
theorem SpotOk.carry {c : Call W D C R} {x : C} {q q' : Spot K W} (h : SpotOk c x (some q))
    (hq : ∀ w, q ≠ .on w) (hq' : (∃ w, q' = .queued w) ∨ ∃ k, q' = .held k) :
    SpotOk c x (some q') where
  idle hi := by
    refine ⟨(h.idle hi).1, ?_⟩
    rcases hq' with ⟨w, rfl⟩ | ⟨k, rfl⟩
    · exact Or.inl ⟨w, rfl⟩
    · exact Or.inr ⟨k, rfl⟩
  saved hi _ _ := h.saved hi (by simp) (fun w he => hq w (Option.some.inj he))
  done p hp := by cases h.done p hp

omit [DecidableEq D] in
/-- A started thread may run. -/
theorem SpotOk.run {c : Call W D C R} {x : C} {q : Spot K W} (h : SpotOk c x (some q))
    (hi : c.join.task ≠ .idle) (w : W) : SpotOk (K := K) c x (some (.on w)) where
  idle hi' := absurd hi' hi
  saved _ _ hw := absurd rfl (hw w)
  done p hp := by cases h.done p hp

omit [DecidableEq D] in
/-- A thread that runs has been started, and is not gone. -/
theorem SpotOk.started {c : Call W D C R} {x : C} {q : Spot K W} (h : SpotOk c x (some q))
    (hw : ∀ w, q ≠ .queued w) (hk : ∀ k, q ≠ .held k) : c.join.task ≠ .idle := by
  intro hi
  rcases (h.idle hi).2 with ⟨w, hq⟩ | ⟨k, hq⟩
  · exact hw w (Option.some.inj hq)
  · exact hk k (Option.some.inj hq)

omit [DecidableEq D] in
/-- A thread that runs may be suspended anywhere with another context. -/
theorem SpotOk.suspend {c : Call W D C R} {x x' : C} {w : W}
    (h : SpotOk (K := K) c x (some (.on w))) (hx : x' ≠ c.fresh) (q : Spot K W) :
    SpotOk c x' (some q) where
  idle hi := absurd hi (h.started (by simp) (by simp))
  saved _ _ _ := hx
  done p hp := by cases h.done p hp

theorem spot_update (ht : Tasked s place k) {q : Option (Spot K W)}
    (hq : (s.call k).desc = d → SpotOk (s.call k) (s.ctx (s.call k).desc) q) :
    SpotOk (s.call k) (s.ctx (s.call k).desc) (Function.update place d q (s.call k).desc) := by
  by_cases hd : (s.call k).desc = d
  · rw [hd, Function.update_self, ← hd]
    exact hq hd
  · rw [Function.update_of_ne hd]
    exact ht.spot

/-- `b` is a thread as before when only other things change. -/
theorem Tasked.transfer (h : Tasked s place k)
    (hd : (s'.call k).desc = (s.call k).desc ∧ (s'.call k).fresh = (s.call k).fresh)
    (hj : (s'.call k).join = (s.call k).join)
    (hv : (s'.call k).slot = (s.call k).slot ∧ (s'.call k).bVal = (s.call k).bVal ∧
      (s'.call k).runs = (s.call k).runs)
    (hbody : s'.body (s.call k).desc = s.body (s.call k).desc)
    (hclosure : s'.closure (s.call k).desc = s.closure (s.call k).desc)
    (hspot : SpotOk (s.call k) (s'.ctx (s.call k).desc) (place' (s.call k).desc)) :
    Tasked s' place' k := by
  obtain ⟨hdesc, hfresh⟩ := hd
  obtain ⟨hslot, hval, hruns⟩ := hv
  -- Each part is about the join, the descriptor or the slot, which are as before.
  constructor
  case body => rw [hdesc, hbody]; exact h.body
  case join => rw [hj]; exact h.join
  case sync => rw [hj]; exact h.sync
  case spot =>
    rw [hdesc]
    constructor
    case idle => rw [hj, hfresh]; exact hspot.idle
    case saved => rw [hj, hfresh]; exact hspot.saved
    case done => rw [hj]; exact hspot.done
  case fresh => rw [hj, hdesc, hclosure, hruns]; exact h.fresh
  case started => rw [hj, hruns]; exact h.started
  case value => rw [hj, hval]; exact h.value
  case slot => rw [hj, hslot, hval]; exact h.slot

/-- A step of `b` leaves the caller where it is. -/
theorem CallInv.retask (h : CallInv s place k) (ho : Owns (s.call k)) (ht : Tasked s' place' k)
    (hst : (s'.call k).stage = (s.call k).stage) (ha : (s'.call k).aVal = (s.call k).aVal)
    (hheld : (s.call k).join.handle = .held → (s'.call k).join.handle = .held)
    (hlive : (s'.call k).join.handle ≠ .reclaim ∧ (s'.call k).join.handle ≠ .gone) :
    CallInv s' place' k := by
  unfold CallInv at h ⊢
  unfold Owns at ho
  rw [hst, ha]
  -- Only the stages that wait for `b` speak of its join.
  cases hstage : (s.call k).stage with
  | unmade | freed ra | inline ra | returned ra rb =>
      rw [hstage] at ho
      exact ho.elim
  | pending | unwound =>
      rw [hstage] at h
      exact ⟨ht, hheld h.2⟩
  | popping ra | popped ra d =>
      rw [hstage] at h
      exact ⟨ht, hheld h.2.1, h.2.2⟩
  | joining ra rb =>
      rw [hstage] at h
      exact ⟨fun _ => ht, h.2.1, fun hh => (hh.elim hlive.1 hlive.2).elim⟩

/-- Another call keeps what holds of it if it is left alone, and if its `b` is
    moved only to where it may be. -/
theorem CallInv.frame (h : CallInv s place k) (hcall : s'.call k = s.call k)
    (hmem : Owns (s.call k) → s.body (s.call k).desc = .branch k →
      s'.body (s.call k).desc = .branch k ∧
        s'.closure (s.call k).desc = s.closure (s.call k).desc ∧
        SpotOk (s.call k) (s'.ctx (s.call k).desc) (place' (s.call k).desc))
    (hfreed : ∀ ra, (s.call k).stage = .freed ra → Freed s k → Freed s' k) :
    CallInv s' place' k := by
  -- Of the call's own thread everything is as it was, but its token may have moved.
  have htasked : Owns (s.call k) → Tasked s place k → Tasked s' place' k := by
    intro ho ht
    obtain ⟨hb, hc, hs⟩ := hmem ho ht.body
    constructor
    case body => rw [hcall]; exact hb
    case join => rw [hcall]; exact ht.join
    case sync => rw [hcall]; exact ht.sync
    case spot => rw [hcall]; exact hs
    case fresh => rw [hcall, hc]; exact ht.fresh
    case started => rw [hcall]; exact ht.started
    case value => rw [hcall]; exact ht.value
    case slot => rw [hcall]; exact ht.slot
  unfold CallInv at h ⊢
  rw [hcall]
  -- Before `b` is handed over, and while the caller waits, `b` is a thread.
  cases hst : (s.call k).stage with
  | unmade | inline ra | returned ra rb =>
      rw [hst] at h
      exact h
  | pending | popping ra | popped ra d | unwound =>
      rw [hst] at h
      exact ⟨htasked (by simp [Owns, hst]) h.1, h.2⟩
  | freed ra =>
      rw [hst] at h
      exact ⟨hfreed ra hst h.1, h.2⟩
  | joining ra rb =>
      rw [hst] at h
      refine ⟨fun hh => htasked ?_ (h.1 hh), h.2⟩
      simp only [Owns, hst]
      exact hh

/-- The step is one of this worker: it leaves the other workers, what they run
    and the memory that they keep alone. -/
structure Local (s s' : State K W D C R) (w : W) : Prop where
  cur : ∀ w', w' ≠ w → s'.cur w' = s.cur w'
  calls : ∀ w' u, w' ≠ w → s.cur w' = some u → s'.calls u = s.calls u
  pool : ∀ w' d, w' ≠ w → s.body d = .free → s.pool d = some w' →
    s'.body d = .free ∧ s'.closure d = s.closure d ∧ s'.pool d = some w'

omit [DecidableEq D] in
/-- No other worker's step gets at the freed memory. -/
theorem Freed.frame (h : Freed s k) {w : W} (hlocal : Local s s' w) (hw : ¬ Tops s w k)
    (hcall : s'.call k = s.call k) : Freed s' k := by
  obtain ⟨w', ⟨u, hcur, htop⟩, hpool⟩ := h.worker
  have hne : w' ≠ w := by
    intro he
    subst he
    exact hw ⟨u, hcur, htop⟩
  obtain ⟨hb, hc, hp⟩ := hlocal.pool w' _ hne h.body hpool
  constructor
  case body => rw [hcall]; exact hb
  case closure => rw [hcall]; exact hc.trans h.closure
  case runs => rw [hcall]; exact h.runs
  case worker =>
    refine ⟨w', ⟨u, (hlocal.cur w' hne).trans hcur, ?_⟩, by rw [hcall]; exact hp⟩
    rw [hlocal.calls w' u hne hcur]
    exact htop

/-- The parts of a step: the tokens, the descriptors, and the calls that it is
    about and those that it leaves alone. -/
theorem Inv.assemble (h : Inv s place)
    (hplaced : Placed (tokens s') place')
    (howned : ∀ d k, s'.body d = .branch k → (s'.call k).desc = d ∧ Owns (s'.call k))
    (hempty : ∀ d, s'.body d = .free ∨ s'.body d = .exited → place' d = none)
    (hcalls : ∀ k, CallInv s' place' k ∨
      (s'.call k = s.call k ∧ (∀ ra, (s.call k).stage = .freed ra → Freed s k → Freed s' k) ∧
        (Tasked s place k → s'.body (s.call k).desc = .branch k ∧
          s'.closure (s.call k).desc = s.closure (s.call k).desc ∧
          SpotOk (s.call k) (s'.ctx (s.call k).desc) (place' (s.call k).desc)))) :
    Inv s' place' where
  placed := hplaced
  owned := howned
  empty := hempty
  calls := by
    intro k
    rcases hcalls k with hk | ⟨hcall, hfreed, hmem⟩
    · exact hk
    · exact (h.calls k).frame hcall (fun ho _ => hmem ((h.calls k).tasked ho)) hfreed

omit [DecidableEq D] in
/-- A worker has one innermost call. -/
theorem OnTop.unique {w : W} {u : D} {k' : K} (h : OnTop s w u k) (h' : Tops s w k') : k' = k := by
  obtain ⟨u', hcur, htop⟩ := h'
  have hu : u' = u := Option.some.inj (hcur.symm.trans h.1)
  subst hu
  exact Option.some.inj (htop.symm.trans h.2)

omit [DecidableEq D] in
theorem not_tops_of_none {w : W} (h : s.cur w = none) : ¬ Tops s w k := by
  rintro ⟨u, hcur, -⟩
  rw [h] at hcur
  cases hcur

omit [DecidableEq D] in
theorem not_tops_of_nil {w : W} {u : D} (hw : s.cur w = some u) (hu : s.calls u = []) :
    ¬ Tops s w k := by
  rintro ⟨u', hcur, htop⟩
  have he : u' = u := Option.some.inj (hcur.symm.trans hw)
  rw [he, hu] at htop
  cases htop

variable [DecidableEq K]

omit [DecidableEq K] in
/-- A worker that runs user code is not about to read a closure. -/
theorem not_tops_of_userCode {w : W} {u : D} (hw : s.cur w = some u) (hu : userCode s u = true)
    {ra : R} (hst : (s.call k).stage = .freed ra) : ¬ Tops s w k := by
  rintro ⟨u', hcur, htop⟩
  have he : u' = u := Option.some.inj (hcur.symm.trans hw)
  subst he
  unfold userCode at hu
  cases hc : s.calls u' with
  | nil =>
      rw [hc] at htop
      cases htop
  | cons k' ks =>
      rw [hc] at hu htop
      have hk : k' = k := Option.some.inj htop
      subst hk
      simp [hst, Stage.open] at hu

omit [DecidableEq K] in
theorem not_tops_of_coding {w : W} (hu : coding s w = true) {ra : R}
    (hst : (s.call k).stage = .freed ra) : ¬ Tops s w k := by
  unfold coding at hu
  cases hw : s.cur w with
  | none => exact not_tops_of_none hw
  | some u =>
      rw [hw] at hu
      exact not_tops_of_userCode hw hu hst

end Fork

end Cmpth

import Cmpth.Fork.Held

/-!
# Once Only

Every `b` of a parallel call is run once, and the call returns what it
produced.

The steps are taken apart by what they move. Most change the record of one call
or move one token, and leave every other call alone. A token that is popped or
stolen stays where `SpotOk` lets it be until it runs, and it runs only once from
the context it was built with, since each later context is another.

Who runs `b` as a thread need not be another worker: when `a` yields, the
caller's own may pick it up.

## Theorems

* `Inv.fresh`: A descriptor that is given out is nobody's, and no worker keeps its memory to itself
  but the one that takes it.
* `ne_of_kept`, `tops_other`: What another worker keeps, and the call on top of a thread.
* `inv_spawn`, `inv_call`, `inv_aReturns`, `inv_aPanics`, `inv_inlineReturns`, `inv_leave`,
  `inv_read`: The actions of a caller.
* `joinInv_built`: The join word of a descriptor that has just been built.
* `Inv.record`, `Inv.moved`, `Inv.shifted`, `Inv.freed`: The kinds of steps.
* `Inv.keeps`: What a descriptor is in use for, while the call keeps it.
* `Inv.keeps_none`: No descriptor is in use for the `b` of a call that does not own one.
* `Inv.empty_update`: A token that moves does not come to an empty descriptor.
* `inv_pop`, `inv_decide`, `inv_joinReclaim`, `inv_join`: A caller takes a thread from its queue,
  and joins.
* `Tasked.joined`: A step of the join by its owner, for `b`.
* `inv_joinQuiet`: A step of the join that neither suspends the caller nor takes anything.
* `inv_joinTake`: `take_result` reads the result that `b` has stored.
* `Inv.suspends`: A thread that runs may be suspended with a context that differs.
* `inv_joinPark`: The thread is suspended and has registered itself in the join word.
* `enter_fresh`, `enter_started`, `run_self`: What a worker does when it switches to a thread.
* `Tasked.ran`: `b` takes a step of its own.
* `inv_enter`: A worker switches to a thread whose token was in a queue or among those that wait.
* `inv_dispatch`, `inv_handoff`, `inv_suspend`, `inv_complete`, `inv_exit`, `inv_exitPlain`,
  `inv_release`, `inv_flush`: The actions of the threads.
* `inv_wake`: Whoever wakes a thread need be no worker.
* `Inv.running`: What a thread that runs is, if it is the `b` of a call.
* `inv_exitStep`: A step of the exit that resumes nobody.
* `inv_exitResume`: The exit gives the joiner a worker, or pushes it.
* `exits_eq`: A step of the exit that neither writes the result, nor resumes, nor frees.
* `inv_next`: Every action keeps the invariant.
* `inv_init`, `inv_reachable`: The invariant holds in every state.
* `runs_once`: One run at most, in place only of what was never started, and the results of both
  branches.
* `reachable_run`, `runs_once_unstolen`: A call whose `b` is not stolen.
* `own_worker_runs`: A run in which the caller's own worker runs `b`.
-/

namespace Cmpth

namespace Fork

open Join (TaskPc HandlePc JoinState)

variable {K W D C R : Type*} [DecidableEq K] [DecidableEq W] [DecidableEq D] [DecidableEq C]
variable {s : State K W D C R} {place : D → Option (Spot K W)} {k : K} {w : W} {u d : D}

section Alloc

omit [DecidableEq K] [DecidableEq W] [DecidableEq C] in
/-- A descriptor that is given out is nobody's, and no worker keeps its memory
    to itself but the one that takes it. -/
theorem Inv.fresh (h : Inv s place) (ha : Allocates s w d) :
    place d = none ∧ (∀ k, Tasked s place k → (s.call k).desc ≠ d) ∧
      ∀ w' u, s.cur w' = some u → u ≠ d := by
  have hnone := h.empty d (Or.inl ha.1)
  refine ⟨hnone, ?_, ?_⟩
  · intro k ht he
    rw [← he] at ha
    exact absurd (ht.body.symm.trans ha.1) (by simp)
  · intro w' u hcur he
    have hon := h.cur_iff.mp hcur
    rw [he, hnone] at hon
    cases hon

omit [DecidableEq K] [DecidableEq W] [DecidableEq D] [DecidableEq C] in
theorem ne_of_kept (ha : Allocates s w d) {w' : W} {d' : D} (hne : w' ≠ w)
    (hp : s.pool d' = some w') : d' ≠ d := by
  rintro rfl
  rcases ha.2 with hn | hn <;> rw [hn] at hp
  · cases hp
  · exact hne (Option.some.inj hp).symm

theorem inv_spawn (h : Inv s place) (hg : guard s (.spawn w d)) :
    ∃ place', Inv (next s (.spawn w d)) place' := by
  obtain ⟨hcode, ha⟩ := hg
  obtain ⟨hnone, hdesc, hcur⟩ := h.fresh ha
  -- Only the pool and the queue of `w` change.
  have hlocal : Local s (next s (.spawn w d)) w := by
    constructor
    case cur => exact fun _ _ => rfl
    case calls => exact fun w' u _ hu => Function.update_of_ne (hcur w' u hu) ..
    case pool =>
      intro w' d' hne hb hp
      have hd := ne_of_kept ha hne hp
      exact ⟨(Function.update_of_ne hd ..).trans hb, Function.update_of_ne hd ..,
        (Function.update_of_ne hd ..).trans hp⟩
  -- The new descriptor was free, so its token was nowhere.
  refine ⟨Function.update place d (some (.queued w)), h.assemble ?_ ?_ ?_ ?_⟩
  · change Placed (tokens ((s.alloc d .plain none).push w d)) _
    rw [tokens_push]
    exact h.placed.put hnone _
  · intro d' k' hb
    have hd : d' ≠ d := by
      rintro rfl
      exact absurd ((Function.update_self ..).symm.trans hb) (by simp)
    exact h.owned d' k' ((Function.update_of_ne hd ..).symm.trans hb)
  · intro d' hb
    have hd : d' ≠ d := by
      rintro rfl
      rcases hb with hb | hb <;> exact absurd ((Function.update_self ..).symm.trans hb) (by simp)
    rw [Function.update_of_ne hd]
    exact h.empty d' (hb.imp (Function.update_of_ne hd ..).symm.trans
      (Function.update_of_ne hd ..).symm.trans)
  · intro k'
    refine Or.inr ⟨rfl, fun ra hst hf => hf.frame hlocal (not_tops_of_coding hcode hst) rfl,
      fun ht => ?_⟩
    have hd := hdesc k' ht
    rw [Function.update_of_ne hd]
    exact ⟨(Function.update_of_ne hd ..).trans ht.body, Function.update_of_ne hd .., ht.spot⟩

theorem joinInv_built : Join.Inv (words D) (built D) :=
  Join.inv_init ⟨Or.inl ⟨rfl, rfl⟩, rfl, rfl, rfl, rfl, rfl, fun _ => rfl, fun _ => rfl,
    fun _ => rfl, fun _ => rfl, rfl, rfl⟩

theorem inv_call (h : Inv s place) {c : C} (hg : guard s (.call w u k d c)) :
    ∃ place', Inv (next s (.call w u k d c)) place' := by
  obtain ⟨hu, hcode, hst, ha⟩ := hg
  obtain ⟨hnone, hdesc, hcur⟩ := h.fresh ha
  have hunmade : (s.call k).join.handle = .held := by
    have hk := h.calls k
    unfold CallInv at hk
    rwa [hst] at hk
  have hother : ∀ d' k', s.body d' = .branch k' → k' ≠ k := by
    rintro d' k' hb rfl
    have ho := (h.owned d' k' hb).2
    simp [Owns, hst] at ho
  have hlocal : Local s (next s (.call w u k d c)) w := by
    constructor
    case cur => exact fun _ _ => rfl
    case calls =>
      intro w' u' hne hu'
      have hne' : u' ≠ u := by
        rintro rfl
        exact hne (h.cur_inj hu' hu)
      exact (Function.update_of_ne hne' ..).trans (Function.update_of_ne (hcur w' u' hu') ..)
    case pool =>
      intro w' d' hne hb hp
      have hd := ne_of_kept ha hne hp
      exact ⟨(Function.update_of_ne hd ..).trans hb, Function.update_of_ne hd ..,
        (Function.update_of_ne hd ..).trans hp⟩
  -- The new descriptor was free; its token goes to the worker's own queue.
  refine ⟨Function.update place d (some (.queued w)), h.assemble ?_ ?_ ?_ ?_⟩
  · change Placed (tokens (((s.alloc d (.branch k) (some k)).push w d).set k _)) _
    rw [tokens_set_same, tokens_push]
    · exact h.placed.put hnone _
    · change [] = (s.call k).held
      simp [Call.held, hst]
    · change [] = (s.call k).waiting
      simp [Call.waiting, hunmade]
  · intro d' k' hb
    by_cases hd : d' = d
    · subst hd
      have hk : k = k' := by
        simpa using (Function.update_self ..).symm.trans hb
      subst hk
      refine ⟨congrArg Call.desc (Function.update_self k _ s.call), ?_⟩
      simp [next, Owns]
    · have hb' : s.body d' = .branch k' := (Function.update_of_ne hd ..).symm.trans hb
      have hk := hother d' k' hb'
      have hsame : (next s (.call w u k d c)).call k' = s.call k' := Function.update_of_ne hk ..
      rw [hsame]
      exact h.owned d' k' hb'
  · intro d' hb
    have hd : d' ≠ d := by
      rintro rfl
      rcases hb with hb | hb <;> exact absurd ((Function.update_self ..).symm.trans hb) (by simp)
    rw [Function.update_of_ne hd]
    exact h.empty d' (hb.imp (Function.update_of_ne hd ..).symm.trans
      (Function.update_of_ne hd ..).symm.trans)
  · intro k'
    by_cases hk : k' = k
    · -- The call itself: its `b` is as it was built.
      subst hk
      left
      have hcall : (next s (.call w u k' d c)).call k' =
          ⟨d, c, .pending, built D, none, none, none, []⟩ := Function.update_self ..
      unfold CallInv
      rw [hcall]
      refine ⟨?_, rfl⟩
      constructor
      case body => rw [hcall]; exact Function.update_self ..
      case join => rw [hcall]; exact joinInv_built
      case sync => rw [hcall]; exact sync_built
      case spot =>
        rw [hcall]
        constructor
        case idle =>
          exact fun _ => ⟨Function.update_self .., Or.inl ⟨w, Function.update_self ..⟩⟩
        case saved => exact fun hi => absurd rfl hi
        case done => exact fun p hp => by cases hp
      case fresh => rw [hcall]; exact fun _ => ⟨Function.update_self .., rfl⟩
      case started => rw [hcall]; exact fun hi => absurd rfl hi
      case value => rw [hcall]; exact fun hx => by cases hx
      case slot => rw [hcall]; exact fun hx => by cases hx
    · have hsame : (next s (.call w u k d c)).call k' = s.call k' := Function.update_of_ne hk ..
      refine Or.inr ⟨hsame, fun ra hst hf => hf.frame hlocal
        (not_tops_of_userCode hu hcode hst) hsame, fun ht => ?_⟩
      have hd := hdesc k' ht
      rw [Function.update_of_ne hd]
      refine ⟨(Function.update_of_ne hd ..).trans ht.body, Function.update_of_ne hd .., ?_⟩
      rw [show (next s (.call w u k d c)).ctx (s.call k').desc = s.ctx (s.call k').desc from
        Function.update_of_ne hd ..]
      exact ht.spot

end Alloc

section Caller

omit [DecidableEq C] in
/-- A step that only concerns the record of one call, and the calls of the
    thread that is in it. -/
theorem Inv.record (h : Inv s place) (hu : s.cur w = some u) {c : Call W D C R} {l : D → List K}
    (hcs : ∀ u', u' ≠ u → l u' = s.calls u')
    (htop : ∀ k' ra, k' ≠ k → (s.call k').stage = .freed ra → ¬ Tops s w k')
    (htok : c.held = (s.call k).held ∧ c.waiting = (s.call k).waiting)
    (howns : ∀ d, s.body d = .branch k → c.desc = d ∧ Owns c)
    (hk : CallInv { s.set k c with calls := l } place k) :
    Inv { s.set k c with calls := l } place := by
  have hcall : ∀ k', k' ≠ k → ({ s.set k c with calls := l } : State K W D C R).call k' =
      s.call k' := fun k' hne => Function.update_of_ne hne ..
  have hlocal : Local s { s.set k c with calls := l } w := by
    constructor
    case cur => exact fun _ _ => rfl
    case calls =>
      intro w' u' hne hu'
      refine hcs u' ?_
      rintro rfl
      exact hne (h.cur_inj hu' hu)
    case pool => exact fun w' d _ hb hp => ⟨hb, rfl, hp⟩
  -- The tokens are where they were, since the record holds and awaits the same ones.
  refine h.assemble ?_ ?_ h.empty ?_
  · change Placed (tokens (s.set k c)) place
    rw [tokens_set_same htok.1 htok.2]
    exact h.placed
  · intro d k' hb
    by_cases hne : k' = k
    · subst hne
      rw [show ({ s.set k' c with calls := l } : State K W D C R).call k' = c from
        Function.update_self ..]
      exact howns d hb
    · rw [hcall k' hne]
      exact h.owned d k' hb
  · intro k'
    by_cases hne : k' = k
    · exact Or.inl (hne ▸ hk)
    · exact Or.inr ⟨hcall k' hne, fun ra hst hf => hf.frame hlocal (htop k' ra hne hst)
        (hcall k' hne), fun ht => ⟨ht.body, rfl, ht.spot⟩⟩

omit [DecidableEq K] [DecidableEq W] [DecidableEq D] [DecidableEq C] in
theorem tops_other (htop : OnTop s w u k) :
    ∀ k' (ra : R), k' ≠ k → (s.call k').stage = .freed ra → ¬ Tops s w k' :=
  fun _ _ hne _ h' => hne (htop.unique h')

omit [DecidableEq K] [DecidableEq W] [DecidableEq C] in
/-- What a descriptor is in use for, while the call keeps it. -/
theorem Inv.keeps (h : Inv s place) {c : Call W D C R} (hdesc : c.desc = (s.call k).desc)
    (ho : Owns c) : ∀ d, s.body d = .branch k → c.desc = d ∧ Owns c :=
  fun d hb => ⟨hdesc.trans (h.owned d k hb).1, ho⟩

omit [DecidableEq K] [DecidableEq W] [DecidableEq C] in
/-- No descriptor is in use for the `b` of a call that does not own one. -/
theorem Inv.keeps_none (h : Inv s place) {c : Call W D C R} (ho : ¬ Owns (s.call k)) :
    ∀ d, s.body d = .branch k → c.desc = d ∧ Owns c :=
  fun d hb => absurd (h.owned d k hb).2 ho

theorem inv_aReturns (h : Inv s place) {ra : R} (hg : guard s (.aReturns w u k ra)) :
    ∃ place', Inv (next s (.aReturns w u k ra)) place' := by
  obtain ⟨htop, hst⟩ := hg
  have hk := h.calls k
  unfold CallInv at hk
  rw [hst] at hk
  have hcall : (next s (.aReturns w u k ra)).call k =
      { s.call k with stage := .popping ra, aVal := some ra } := Function.update_self ..
  refine ⟨place, h.record (l := s.calls) htop.1 (fun _ _ => rfl) (tops_other htop) ⟨?_, rfl⟩
    (h.keeps rfl trivial) ?_⟩
  · simp [Call.held, hst]
  · change CallInv (next s (.aReturns w u k ra)) place k
    unfold CallInv
    rw [hcall]
    refine ⟨hk.1.transfer ?_ ?_ ?_ rfl rfl hk.1.spot, hk.2, rfl⟩ <;> rw [hcall] <;>
      simp only [and_self]

theorem inv_aPanics (h : Inv s place) (hg : guard s (.aPanics w u k)) :
    ∃ place', Inv (next s (.aPanics w u k)) place' := by
  obtain ⟨htop, hst⟩ := hg
  have hk := h.calls k
  unfold CallInv at hk
  rw [hst] at hk
  have hcall : (next s (.aPanics w u k)).call k = { s.call k with stage := .unwound } :=
    Function.update_self ..
  refine ⟨place, h.record htop.1 (fun u' hne => Function.update_of_ne hne ..) (tops_other htop)
    ⟨?_, rfl⟩ (h.keeps rfl trivial) ?_⟩
  · simp [Call.held, hst]
  · change CallInv (next s (.aPanics w u k)) place k
    unfold CallInv
    rw [hcall]
    refine ⟨hk.1.transfer ?_ ?_ ?_ rfl rfl hk.1.spot, hk.2⟩ <;> rw [hcall] <;>
      simp only [and_self]

theorem inv_inlineReturns (h : Inv s place) {ra rb : R}
    (hg : guard s (.inlineReturns w u k ra rb)) :
    ∃ place', Inv (next s (.inlineReturns w u k ra rb)) place' := by
  obtain ⟨htop, hst⟩ := hg
  have hk := h.calls k
  unfold CallInv at hk
  rw [hst] at hk
  have hcall : (next s (.inlineReturns w u k ra rb)).call k =
      { s.call k with stage := .returned ra (some rb), bVal := some rb } :=
    Function.update_self ..
  refine ⟨place, h.record htop.1 (fun u' hne => Function.update_of_ne hne ..) (tops_other htop)
    ⟨?_, rfl⟩ (h.keeps_none (by simp [Owns, hst])) ?_⟩
  · simp [Call.held, hst]
  · change CallInv (next s (.inlineReturns w u k ra rb)) place k
    unfold CallInv
    rw [hcall]
    exact ⟨⟨rfl, by simp, none, hk.1⟩, hk.2.2⟩

theorem inv_leave (h : Inv s place) {ra : R} {rb : Option R} (hg : guard s (.leave w u k ra rb)) :
    ∃ place', Inv (next s (.leave w u k ra rb)) place' := by
  obtain ⟨htop, hst, hgone⟩ := hg
  have hk := h.calls k
  unfold CallInv at hk
  rw [hst] at hk
  have hcall : (next s (.leave w u k ra rb)).call k =
      { s.call k with stage := .returned ra rb } := Function.update_self ..
  refine ⟨place, h.record htop.1 (fun u' hne => Function.update_of_ne hne ..) (tops_other htop)
    ⟨?_, rfl⟩ (h.keeps_none (by simp [Owns, hst, hgone])) ?_⟩
  · simp [Call.held, hst]
  · change CallInv (next s (.leave w u k ra rb)) place k
    unfold CallInv
    rw [hcall]
    exact ⟨hk.2.2 (Or.inr hgone), hk.2.1⟩

theorem inv_read (h : Inv s place) {ra : R} (hg : guard s (.read w u k ra)) :
    ∃ place', Inv (next s (.read w u k ra)) place' := by
  obtain ⟨htop, hst⟩ := hg
  have hk := h.calls k
  unfold CallInv at hk
  rw [hst] at hk
  obtain ⟨hf, hheld, ha⟩ := hk
  -- What is read is the closure of this call.
  have hnext : next s (.read w u k ra) =
      s.set k { s.call k with stage := .inline ra, runs := [none] } := by
    simp [next, State.starts, State.set, hf.closure, hf.runs]
  rw [hnext]
  have hcall : (s.set k { s.call k with stage := .inline ra, runs := [none] }).call k =
      { s.call k with stage := .inline ra, runs := [none] } := Function.update_self ..
  refine ⟨place, h.record (l := s.calls) htop.1 (fun _ _ => rfl) (tops_other htop) ⟨?_, rfl⟩
    (h.keeps_none (by simp [Owns, hst])) ?_⟩
  · simp [Call.held, hst]
  · change CallInv (s.set k { s.call k with stage := .inline ra, runs := [none] }) place k
    unfold CallInv
    rw [hcall]
    exact ⟨rfl, hheld, ha⟩

omit [DecidableEq W] [DecidableEq C] in
/-- A step that changes only the record of one call, its worker's `cur`, the
    queues and the contexts, and so moves tokens. -/
theorem Inv.moved {s' : State K W D C R} {place' : D → Option (Spot K W)} (h : Inv s place)
    (hcur : ∀ w', w' ≠ w → s'.cur w' = s.cur w')
    (hsame : s'.calls = s.calls ∧ s'.body = s.body ∧ s'.closure = s.closure ∧ s'.pool = s.pool)
    (hother : ∀ k', k' ≠ k → s'.call k' = s.call k')
    (htop : ∀ k' ra, k' ≠ k → (s.call k').stage = .freed ra → ¬ Tops s w k')
    (hplaced : Placed (tokens s') place')
    (howns : ∀ d, s.body d = .branch k → (s'.call k).desc = d ∧ Owns (s'.call k))
    (hempty : ∀ d, s.body d = .free ∨ s.body d = .exited → place' d = none)
    (hspot : ∀ k', k' ≠ k → Tasked s place k' →
      SpotOk (s.call k') (s'.ctx (s.call k').desc) (place' (s.call k').desc))
    (hk : CallInv s' place' k) : Inv s' place' := by
  obtain ⟨hcalls, hbody, hclosure, hpool⟩ := hsame
  have hlocal : Local s s' w := by
    constructor
    case cur => exact hcur
    case calls => exact fun w' u _ _ => by rw [hcalls]
    case pool =>
      intro w' d _ hb hp
      rw [hbody, hclosure, hpool]
      exact ⟨hb, rfl, hp⟩
  -- Every other call keeps its record, its descriptor and the context of its `b`.
  refine h.assemble hplaced ?_ ?_ ?_
  · intro d k' hb
    rw [hbody] at hb
    by_cases hne : k' = k
    · subst hne
      exact howns d hb
    · rw [hother k' hne]
      exact h.owned d k' hb
  · intro d hb
    rw [hbody] at hb
    exact hempty d hb
  · intro k'
    by_cases hne : k' = k
    · exact Or.inl (hne ▸ hk)
    · refine Or.inr ⟨hother k' hne, fun ra hst hf => hf.frame hlocal (htop k' ra hne hst)
        (hother k' hne), fun ht => ?_⟩
      rw [hbody, hclosure]
      exact ⟨ht.body, rfl, hspot k' hne ht⟩

omit [DecidableEq K] [DecidableEq W] [DecidableEq C] in
theorem Inv.empty_update (h : Inv s place) {x : Spot K W} (hd : place d = some x)
    (q : Option (Spot K W)) :
    ∀ d', s.body d' = .free ∨ s.body d' = .exited → Function.update place d q d' = none := by
  intro d' hb
  have hne : d' ≠ d := by
    rintro rfl
    obtain ⟨hf, he⟩ := h.in_use hd
    exact hb.elim hf he
  rw [Function.update_of_ne hne]
  exact h.empty d' hb

theorem inv_pop (h : Inv s place) {ra : R} {o : Option D} (hg : guard s (.pop w u k ra o)) :
    ∃ place', Inv (next s (.pop w u k ra o)) place' := by
  obtain ⟨htop, hst, hmem⟩ := hg
  have hk := h.calls k
  unfold CallInv at hk
  rw [hst] at hk
  obtain ⟨ht, hheld, ha⟩ := hk
  -- The queue may be empty, or hand out any thread: `b` or another one.
  cases o with
  | none =>
      have hcall : (next s (.pop w u k ra none)).call k =
          { s.call k with stage := .joining ra none } := Function.update_self ..
      refine ⟨place, h.record (l := s.calls) htop.1 (fun _ _ => rfl) (tops_other htop) ⟨?_, rfl⟩
        (h.keeps rfl ?_) ?_⟩
      · simp [Call.held, hst]
      · simp [Owns, hheld]
      · change CallInv (next s (.pop w u k ra none)) place k
        unfold CallInv
        rw [hcall]
        refine ⟨fun _ => ht.transfer ?_ ?_ ?_ rfl rfl ht.spot, ha, ?_⟩
        · rw [hcall]
          exact ⟨rfl, rfl⟩
        · rw [hcall]
        · rw [hcall]
          exact ⟨rfl, rfl, rfl⟩
        · simp [hheld]
  | some d =>
      have hq : d ∈ tokens s (.queued w) := hmem d rfl
      have hplace : place d = some (.queued w) := h.placed.mem.mp hq
      have hcall : (next s (.pop w u k ra (some d))).call k =
          { s.call k with stage := .popped ra d } := Function.update_self ..
      have hspot : ∀ k', Tasked s place k' →
          SpotOk (s.call k') (s.ctx (s.call k').desc)
            (Function.update place d (some (.held k)) (s.call k').desc) := by
        intro k' ht'
        refine spot_update ht' fun hd => ?_
        have hs := ht'.spot
        rw [hd, hplace, ← hd] at hs
        exact hs.carry (by simp) (Or.inr ⟨k, rfl⟩)
      refine ⟨Function.update place d (some (.held k)), h.moved (w := w) (k := k)
        (fun _ _ => rfl) ⟨rfl, rfl, rfl, rfl⟩ (fun k' hne => Function.update_of_ne hne ..)
        (tops_other htop) ?_ ?_ (h.empty_update hplace _) (fun k' _ ht' => hspot k' ht') ?_⟩
      · change Placed (tokens (({ s with
          queue := Function.update s.queue w ((s.queue w).erase d) } : State K W D C R).set k
            { s.call k with stage := .popped ra d })) _
        rw [tokens_hold (by rfl), tokens_queue]
        have hmove := h.placed.move (y := .held k) hq (by simp)
        rwa [show tokens s (.held k) = [] by simp [tokens, Call.held, hst]] at hmove
      · intro d' hb
        rw [hcall]
        exact ⟨(h.owned d' k hb).1, trivial⟩
      · unfold CallInv
        rw [hcall]
        refine ⟨ht.transfer ?_ ?_ ?_ rfl rfl (hspot k ht), hheld, ha⟩
        · rw [hcall]
          exact ⟨rfl, rfl⟩
        · rw [hcall]
        · rw [hcall]
          exact ⟨rfl, rfl, rfl⟩

omit [DecidableEq W] [DecidableEq C] in
/-- A step that gives the descriptor of the call back to the pool. -/
theorem Inv.freed {s' : State K W D C R} {place' : D → Option (Spot K W)} (h : Inv s place)
    (hd : (s.call k).desc = d) (hb : s.body d = .branch k) (hcall : (s'.call k).desc = d)
    (hsame : s'.cur = s.cur ∧ s'.calls = s.calls ∧ s'.closure = s.closure ∧ s'.ctx = s.ctx)
    (hbody : s'.body = Function.update s.body d .free)
    (hpool : s'.pool = Function.update s.pool d (some w))
    (hother : ∀ k', k' ≠ k → s'.call k' = s.call k')
    (htop : ∀ k' ra, k' ≠ k → (s.call k').stage = .freed ra → ¬ Tops s w k')
    (hplaced : Placed (tokens s') place')
    (hplace : ∀ d', d' ≠ d → place' d' = place d') (hnone : place' d = none)
    (hk : CallInv s' place' k) : Inv s' place' := by
  obtain ⟨hcur, hcalls, hclosure, hctx⟩ := hsame
  have hlocal : Local s s' w := by
    constructor
    case cur => exact fun w' _ => by rw [hcur]
    case calls => exact fun w' u _ _ => by rw [hcalls]
    case pool =>
      intro w' d' _ hf hp
      have hne : d' ≠ d := by
        rintro rfl
        rw [hb] at hf
        cases hf
      rw [hbody, hclosure, hpool, Function.update_of_ne hne, Function.update_of_ne hne]
      exact ⟨hf, rfl, hp⟩
  -- No other call's thread has the descriptor `d`.
  refine h.assemble hplaced ?_ ?_ ?_
  · intro d' k' hb'
    have hne : d' ≠ d := by
      rintro rfl
      rw [hbody, Function.update_self] at hb'
      cases hb'
    rw [hbody, Function.update_of_ne hne] at hb'
    have hk' : k' ≠ k := by
      rintro rfl
      exact hne ((h.owned d' k' hb').1.symm.trans hd)
    rw [hother k' hk']
    exact h.owned d' k' hb'
  · intro d' hb'
    by_cases hne : d' = d
    · rw [hne]
      exact hnone
    · rw [hbody, Function.update_of_ne hne] at hb'
      rw [hplace d' hne]
      exact h.empty d' hb'
  · intro k'
    by_cases hk' : k' = k
    · exact Or.inl (hk' ▸ hk)
    · refine Or.inr ⟨hother k' hk', fun ra hst hf => hf.frame hlocal (htop k' ra hk' hst)
        (hother k' hk'), fun ht => ?_⟩
      have hne : (s.call k').desc ≠ d := by
        intro he
        have hb' := ht.body
        rw [he, hb] at hb'
        exact hk' (Body.branch.inj hb').symm
      rw [hbody, hclosure, hctx, Function.update_of_ne hne, hplace _ hne]
      exact ⟨ht.body, rfl, ht.spot⟩

theorem inv_decide (h : Inv s place) {ra : R} (hg : guard s (.decide w u k ra d)) :
    ∃ place', Inv (next s (.decide w u k ra d)) place' := by
  obtain ⟨htop, hst⟩ := hg
  have hk := h.calls k
  unfold CallInv at hk
  rw [hst] at hk
  obtain ⟨ht, hheld, ha⟩ := hk
  have hmem : d ∈ tokens s (.held k) := by simp [tokens, Call.held, hst]
  have hplace : place d = some (.held k) := h.placed.mem.mp hmem
  by_cases hfresh : d = (s.call k).desc ∧ s.ctx d = (s.call k).fresh
  · -- The context tells that it has not been started.
    obtain ⟨hd, hctx⟩ := hfresh
    have hidle : (s.call k).join.task = .idle := by
      by_contra hi
      have hs := ht.spot
      rw [← hd, hplace] at hs
      exact hs.saved hi (by simp) (by simp) hctx
    obtain ⟨hclosure, hruns⟩ := ht.fresh hidle
    -- It is another thread, or `b` after its start: it is pushed back, and the caller joins.
    have hnext : next s (.decide w u k ra d) =
        (s.set k { s.call k with stage := .freed ra }).free w d := if_pos ⟨hd, hctx⟩
    rw [hnext]
    have hcall : ((s.set k { s.call k with stage := .freed ra }).free w d).call k =
        { s.call k with stage := .freed ra } := Function.update_self ..
    refine ⟨Function.update place d none, h.freed (w := w) (k := k) (d := d) hd.symm
      (hd ▸ ht.body) (by rw [hcall]; exact hd.symm) ⟨rfl, rfl, rfl, rfl⟩ rfl rfl
      (fun k' hne => Function.update_of_ne hne ..) (tops_other htop) ?_
      (fun d' hne => Function.update_of_ne hne ..) (Function.update_self ..) ?_⟩
    · change Placed (tokens (s.set k { s.call k with stage := .freed ra })) _
      rw [tokens_hold (by rfl)]
      have htake := h.placed.take hmem
      have herase : (tokens s (.held k)).erase d = [] := by simp [tokens, Call.held, hst]
      rwa [herase] at htake
    · unfold CallInv
      rw [hcall]
      refine ⟨?_, hheld, ha⟩
      constructor
      case body =>
        rw [hcall, ← hd]
        exact Function.update_self ..
      case closure =>
        rw [hcall]
        exact hclosure
      case runs =>
        rw [hcall]
        exact hruns
      case worker =>
        rw [hcall, ← hd]
        exact ⟨w, ⟨u, htop⟩, Function.update_self ..⟩
  · have hnext : next s (.decide w u k ra d) =
        (s.set k { s.call k with stage := .joining ra none }).push w d := if_neg hfresh
    rw [hnext]
    have hcall : ((s.set k { s.call k with stage := .joining ra none }).push w d).call k =
        { s.call k with stage := .joining ra none } := Function.update_self ..
    have hspot : ∀ k', Tasked s place k' →
        SpotOk (s.call k') (s.ctx (s.call k').desc)
          (Function.update place d (some (.queued w)) (s.call k').desc) := by
      intro k' ht'
      refine spot_update ht' fun hd => ?_
      have hs := ht'.spot
      rw [hd, hplace, ← hd] at hs
      exact hs.carry (by simp) (Or.inl ⟨w, rfl⟩)
    refine ⟨Function.update place d (some (.queued w)), h.moved (w := w) (k := k)
      (fun _ _ => rfl) ⟨rfl, rfl, rfl, rfl⟩ (fun k' hne => Function.update_of_ne hne ..)
      (tops_other htop) ?_ ?_ (h.empty_update hplace _) (fun k' _ ht' => hspot k' ht') ?_⟩
    · rw [tokens_push, tokens_hold (by rfl)]
      have hmove := h.placed.move (y := .queued w) hmem (by simp)
      have herase : (tokens s (.held k)).erase d = [] := by simp [tokens, Call.held, hst]
      rw [herase] at hmove
      rwa [Function.update_of_ne (by simp)]
    · intro d' hb
      rw [hcall]
      exact ⟨(h.owned d' k hb).1, by simp [Owns, hheld]⟩
    · unfold CallInv
      rw [hcall]
      refine ⟨fun _ => ht.transfer ?_ ?_ ?_ rfl rfl (hspot k ht), ha, ?_⟩
      · rw [hcall]
        exact ⟨rfl, rfl⟩
      · rw [hcall]
      · rw [hcall]
        exact ⟨rfl, rfl, rfl⟩
      · simp [hheld]

omit [DecidableEq K] [DecidableEq W] [DecidableEq C] in
/-- A step of the join by its owner, for `b`. -/
theorem Tasked.joined {s' : State K W D C R} {place' : D → Option (Spot K W)}
    (h : Tasked s place k) {a : Join.Action (JoinState D) D D} (ha : mine u a = true)
    (hg : Join.guard (words D) (s.call k).join a)
    (hd : (s'.call k).desc = (s.call k).desc ∧ (s'.call k).fresh = (s.call k).fresh)
    (hj : (s'.call k).join = Join.next (words D) (s.call k).join a)
    (hv : (s'.call k).slot = (s.call k).slot ∧ (s'.call k).bVal = (s.call k).bVal ∧
      (s'.call k).runs = (s.call k).runs)
    (hsame : s'.body = s.body ∧ s'.closure = s.closure)
    (hspot : SpotOk (s.call k) (s'.ctx (s.call k).desc) (place' (s.call k).desc)) :
    Tasked s' place' k := by
  obtain ⟨hdesc, hfresh⟩ := hd
  obtain ⟨hslot, hval, hruns⟩ := hv
  -- A step of the handle leaves the task where it is.
  have ht : (Join.next (words D) (s.call k).join a).task = (s.call k).join.task :=
    Join.Call.task_handle (ofHandle_of_mine ha)
  constructor
  case body => rw [hdesc, hsame.1]; exact h.body
  case join => rw [hj]; exact Join.inv_next h.join hg
  case sync => rw [hj]; exact sync_handle h.sync ha hg
  case spot =>
    rw [hdesc]
    constructor
    case idle => rw [hj, ht, hfresh]; exact hspot.idle
    case saved => rw [hj, ht, hfresh]; exact hspot.saved
    case done => rw [hj, ht]; exact hspot.done
  case fresh => rw [hj, ht, hdesc, hsame.2, hruns]; exact h.fresh
  case started => rw [hj, ht, hruns]; exact h.started
  case value => rw [hj, ht, hval]; exact h.value
  case slot => rw [hj, ht, written_handle ha, hslot, hval]; exact h.slot

omit [DecidableEq C] in
/-- A step of the join that neither suspends the caller nor takes anything. -/
theorem inv_joinQuiet (h : Inv s place) {ra : R} {rb : Option R}
    {a : Join.Action (JoinState D) D D} (htop : OnTop s w u k)
    (hst : (s.call k).stage = .joining ra rb) (ha : mine u a = true)
    (hg : Join.guard (words D) (s.call k).join a)
    (hwas : (s.call k).waiting = [] ∧ (s.call k).join.handle ≠ .gone)
    (hwait : ∀ t, (Join.next (words D) (s.call k).join a).handle ≠ .parked t)
    (hlive : (Join.next (words D) (s.call k).join a).handle ≠ .reclaim ∧
      (Join.next (words D) (s.call k).join a).handle ≠ .gone) :
    Inv (s.set k { s.call k with join := Join.next (words D) (s.call k).join a }) place := by
  -- Only the join of this call changes.
  have hk := (callInv_joining hst).mp (h.calls k)
  have ht := hk.1 hwas.2
  refine h.record (l := s.calls) htop.1 (fun _ _ => rfl) (tops_other htop) ⟨rfl, ?_⟩
    (h.keeps rfl ?_) ?_
  · rw [hwas.1]
    unfold Call.waiting
    split
    · rename_i t hp
      exact absurd hp (hwait t)
    · rfl
  · simp only [Owns, hst]
    exact hlive.2
  · change CallInv (s.set k _) place k
    refine (callInv_joining (by simpa using hst)).mpr ⟨fun _ => ht.joined ha hg (by simp)
      (by simp) (by simp) ⟨rfl, rfl⟩ ht.spot, by simpa using hk.2.1, fun hh => ?_⟩
    simp only [call_set] at hh
    exact (hh.elim hlive.1 hlive.2).elim

omit [DecidableEq C] in
/-- `take_result` reads the result that `b` has stored. -/
theorem inv_joinTake (h : Inv s place) {ra : R} {rb : Option R} (htop : OnTop s w u k)
    (hst : (s.call k).stage = .joining ra rb) (hg : (s.call k).join.handle = .take) :
    Inv (s.set k { s.call k with
      join := Join.next (words D) (s.call k).join .take
      stage := .joining ra (s.call k).slot }) place := by
  have hk := (callInv_joining hst).mp (h.calls k)
  have ht := hk.1 (by rw [hg]; simp)
  -- The handle takes after the task has ended, so that the result is there.
  have hdone : (s.call k).join.task = .done true := done_of_taken ht.sync ht.join (Or.inl hg)
  have hwritten : (s.call k).join.written = true := by
    obtain ⟨st, hat⟩ := ht.join
    exact hat.written (by rw [hdone]; rfl)
  refine h.record (l := s.calls) htop.1 (fun _ _ => rfl) (tops_other htop) ⟨?_, ?_⟩
    (h.keeps rfl ?_) ?_
  · simp [Call.held, hst]
  · simp [Call.waiting, hg, Join.next, Join.effect]
  · simp [Owns, Join.next, Join.effect]
  · change CallInv (s.set k _) place k
    have hnew : ((s.set k { s.call k with
        join := Join.next (words D) (s.call k).join .take
        stage := .joining ra (s.call k).slot }).call k).stage = .joining ra (s.call k).slot := by
      simp
    refine (callInv_joining hnew).mpr ⟨fun _ => ht.joined (u := u) (a := .take) rfl hg (by simp)
      (by simp) (by simp) ⟨rfl, rfl⟩ ht.spot, by simpa using hk.2.1, fun _ => ?_⟩
    obtain ⟨w', hr⟩ := ht.started (by rw [hdone]; simp)
    simp only [call_set]
    exact ⟨(ht.slot hwritten).2, ht.value (by rw [hdone]; rfl), some w', hr⟩

omit [DecidableEq C] in
theorem inv_joinReclaim (h : Inv s place) {ra : R} {rb : Option R} (htop : OnTop s w u k)
    (hst : (s.call k).stage = .joining ra rb) (hg : (s.call k).join.handle = .reclaim) :
    ∃ place', Inv ((s.set k { s.call k with
      join := Join.next (words D) (s.call k).join .reclaim }).free w (s.call k).desc) place' := by
  have hk := (callInv_joining hst).mp (h.calls k)
  have ht := hk.1 (by rw [hg]; simp)
  have hdone : (s.call k).join.task = .done true := done_of_taken ht.sync ht.join (Or.inr hg)
  -- The thread is gone, so nobody has its token.
  have hnone : place (s.call k).desc = none := ht.spot.done true hdone
  refine ⟨place, h.freed (w := w) (k := k) rfl ht.body (by simp) ⟨rfl, rfl, rfl, rfl⟩ rfl
    rfl (fun k' hne => Function.update_of_ne hne ..) (tops_other htop) ?_ (fun _ _ => rfl) hnone
    ?_⟩
  · change Placed (tokens (s.set k _)) place
    rw [tokens_set_same]
    · exact h.placed
    · rfl
    · simp [Call.waiting, hg, Join.next, Join.effect]
  · refine (callInv_joining (by simpa using hst)).mpr ⟨fun hh => ?_, by simpa using hk.2.1,
      fun _ => ?_⟩
    · simp [Join.next, Join.effect] at hh
    · simp only [call_free, call_set]
      exact hk.2.2 (Or.inl hg)

omit [DecidableEq K] [DecidableEq W] [DecidableEq C] in
/-- A thread that runs may be suspended with a context that differs. -/
theorem Inv.suspends (h : Inv s place) (hu : s.cur w = some u) {c : C}
    (hc : ∀ k, s.body u = .branch k → c ≠ (s.call k).fresh) (q : Spot K W) {k' : K}
    (ht : Tasked s place k') :
    SpotOk (s.call k') (Function.update s.ctx u c (s.call k').desc)
      (Function.update place u (some q) (s.call k').desc) := by
  by_cases hd : (s.call k').desc = u
  · have hon := h.cur_iff.mp hu
    have hs := ht.spot
    have hb := ht.body
    rw [hd] at hs hb
    rw [hon] at hs
    rw [hd, Function.update_self, Function.update_self]
    exact hs.suspend (hc k' hb) q
  · rw [Function.update_of_ne hd, Function.update_of_ne hd]
    exact ht.spot

omit [DecidableEq C] in
/-- The thread is suspended and has registered itself in the join word. -/
theorem inv_joinPark (h : Inv s place) {ra : R} {rb : Option R} {c : C} {cur : JoinState D}
    {spurious : Bool} (htop : OnTop s w u k) (hst : (s.call k).stage = .joining ra rb)
    (hg : (s.call k).join.handle = .exchange (.join u) cur)
    (hc : ∀ k, s.body u = .branch k → c ≠ (s.call k).fresh)
    (hp : (Join.next (words D) (s.call k).join (.exchange (.join u) cur spurious)).handle =
      .parked u) :
    ∃ place', Inv { (s.set k { s.call k with
      join := Join.next (words D) (s.call k).join (.exchange (.join u) cur spurious) }).run w none
        with ctx := Function.update s.ctx u c } place' := by
  have hk := (callInv_joining hst).mp (h.calls k)
  have ht := hk.1 (by rw [hg]; simp)
  have hon := h.cur_iff.mp htop.1
  have hmem : u ∈ tokens s (.on w) := h.placed.mem.mpr hon
  have hmine : mine u (.exchange (.join u) cur spurious) = true := beq_self_eq_true u
  -- The caller's own token goes from the worker to the join word.
  refine ⟨Function.update place u (some (.joining k)), h.moved (w := w) (k := k)
    (fun w' hne => Function.update_of_ne hne ..) ⟨rfl, rfl, rfl, rfl⟩
    (fun k' hne => Function.update_of_ne hne ..) (tops_other htop) ?_ ?_ (h.empty_update hon _)
    (fun k' _ ht' => h.suspends htop.1 hc _ ht') ?_⟩
  · change Placed (tokens (State.set (s.run w none) k _)) _
    rw [tokens_wait (by rfl), tokens_run]
    have hmove := h.placed.move (y := .joining k) hmem (by simp)
    have herase : (tokens s (.on w)).erase u = [] := by simp [tokens, htop.1]
    have hwas : tokens s (.joining k) = [] := by simp [tokens, Call.waiting, hg]
    rw [herase, hwas] at hmove
    simpa [Call.waiting, hp] using hmove
  · intro d' hb
    simp only [call_run, call_set]
    exact ⟨(h.owned d' k hb).1, by simp [Owns, hst, hp]⟩
  · refine (callInv_joining (by simpa using hst)).mpr ⟨fun _ => ht.joined hmine hg (by simp)
      (by simp) (by simp) ⟨rfl, rfl⟩ (h.suspends htop.1 hc _ ht), by simpa using hk.2.1,
      fun hh => ?_⟩
    simp [hp] at hh

theorem inv_join (h : Inv s place) {ra : R} {rb : Option R} {a : Join.Action (JoinState D) D D}
    {c : C} (hg : guard s (.join w u k ra rb a c)) (hc : SavedDiffers s (.join w u k ra rb a c)) :
    ∃ place', Inv (next s (.join w u k ra rb a c)) place' := by
  obtain ⟨htop, hst, ha, hj⟩ := hg
  have hquiet : ∀ b : Join.Action (JoinState D) D D, mine u b = true →
      Join.guard (words D) (s.call k).join b →
      ((s.call k).waiting = [] ∧ (s.call k).join.handle ≠ .gone) →
      ((∀ t, (Join.next (words D) (s.call k).join b).handle ≠ .parked t) ∧
        (Join.next (words D) (s.call k).join b).handle ≠ .reclaim ∧
        (Join.next (words D) (s.call k).join b).handle ≠ .gone) →
      ∃ place', Inv (s.set k { s.call k with
        join := Join.next (words D) (s.call k).join b }) place' :=
    fun b hb hgb hwas hto => ⟨place, inv_joinQuiet h htop hst hb hgb hwas hto.1 hto.2⟩
  -- One case for each access of `join`.
  rcases mine_cases ha with rfl | rfl | rfl | ⟨cur, spurious, rfl⟩ | rfl | rfl
  · have hheld : (s.call k).join.handle = .held := hj.1
    refine hquiet _ ha hj (by simp [Call.waiting, hheld]) ?_
    simp [Join.next, Join.effect]
  · have hheld : (s.call k).join.handle = .isFinished u := hj
    refine hquiet _ ha hj (by simp [Call.waiting, hheld]) ?_
    simp only [Join.next, Join.effect]
    split <;> simp
  · have hheld : (s.call k).join.handle = .load (.join u) := hj
    refine hquiet _ ha hj (by simp [Call.waiting, hheld]) ?_
    simp only [Join.next, Join.effect]
    split <;> simp [Join.Op.refused]
  · have hheld : (s.call k).join.handle = .exchange (.join u) cur := hj
    simp only [next, State.joins]
    split
    · rename_i hp
      exact inv_joinPark h htop hst hheld hc hp
    · rename_i hp
      refine hquiet _ ha hj (by simp [Call.waiting, hheld]) ?_
      simp only [Join.next, Join.effect] at hp ⊢
      split
      · rename_i he
        rw [if_pos he] at hp
        exact absurd rfl hp
      · split <;> simp [Join.Op.refused]
  · exact ⟨place, inv_joinTake h htop hst hj⟩
  · exact inv_joinReclaim h htop hst hj

end Caller

section Threads

omit [DecidableEq K] [DecidableEq W] [DecidableEq C] in
/-- A step that changes no call and moves tokens. -/
theorem Inv.shifted {s' : State K W D C R} {place' : D → Option (Spot K W)} (h : Inv s place)
    (hcur : ∀ w', w' ≠ w → s'.cur w' = s.cur w')
    (hsame : s'.calls = s.calls ∧ s'.body = s.body ∧ s'.closure = s.closure ∧ s'.pool = s.pool)
    (hcall : s'.call = s.call)
    (htop : ∀ k' ra, (s.call k').stage = .freed ra → ¬ Tops s w k')
    (hplaced : Placed (tokens s') place')
    (hempty : ∀ d, s.body d = .free ∨ s.body d = .exited → place' d = none)
    (hspot : ∀ k', Tasked s place k' →
      SpotOk (s.call k') (s'.ctx (s.call k').desc) (place' (s.call k').desc)) :
    Inv s' place' := by
  obtain ⟨hcalls, hbody, hclosure, hpool⟩ := hsame
  have hlocal : Local s s' w := by
    constructor
    case cur => exact hcur
    case calls => exact fun w' u _ _ => by rw [hcalls]
    case pool =>
      intro w' d _ hb hp
      rw [hbody, hclosure, hpool]
      exact ⟨hb, rfl, hp⟩
  -- Calls are left alone, and so are their descriptors.
  refine h.assemble hplaced ?_ ?_ ?_
  · intro d k' hb
    rw [hbody] at hb
    rw [hcall]
    exact h.owned d k' hb
  · intro d hb
    rw [hbody] at hb
    exact hempty d hb
  · intro k'
    refine Or.inr ⟨by rw [hcall], fun ra hst hf => hf.frame hlocal (htop k' ra hst)
      (by rw [hcall]), fun ht => ?_⟩
    rw [hbody, hclosure]
    exact ⟨ht.body, rfl, hspot k' ht⟩

omit [DecidableEq C] in
theorem enter_fresh (hb : s.body d = .branch k) (hi : (s.call k).join.task = .idle)
    (hc : s.closure d = some k) :
    s.enter w d = (s.run w (some d)).set k { s.call k with
      join := Join.next (words D) (s.call k).join .begin
      runs := (s.call k).runs ++ [some w] } := by
  simp [State.enter, hb, hi, hc, State.starts, State.set]

omit [DecidableEq C] in
theorem enter_started (h : ∀ k, s.body d = .branch k → (s.call k).join.task ≠ .idle) :
    s.enter w d = s.run w (some d) := by
  unfold State.enter
  cases hb : s.body d with
  | branch k => exact if_neg (h k hb)
  | free | plain | exited => rfl

omit [DecidableEq K] [DecidableEq W] [DecidableEq C] in
/-- `b` takes a step of its own. -/
theorem Tasked.ran {s' : State K W D C R} {place' : D → Option (Spot K W)} (h : Tasked s place k)
    {j : Join.State (JoinState D) D D} (hj : (s'.call k).join = j)
    (hinv : Join.Inv (words D) j ∧ Sync j)
    (hd : (s'.call k).desc = (s.call k).desc ∧ (s'.call k).fresh = (s.call k).fresh)
    (hsame : s'.body = s.body ∧ s'.closure = s.closure) (hi : j.task ≠ .idle)
    (hspot : (∃ w, place' (s.call k).desc = some (.on w)) ∨
      place' (s.call k).desc = none)
    (hdone : ∀ p, j.task = .done p → place' (s.call k).desc = none)
    (hruns : ∃ w, (s'.call k).runs = [some w])
    (hvalue : j.task.exiting = true → (s'.call k).bVal ≠ none)
    (hslot : j.written = true → j.task.exiting = true ∧ (s'.call k).slot = (s'.call k).bVal) :
    Tasked s' place' k := by
  obtain ⟨hdesc, hfresh⟩ := hd
  -- `b` has been started, so what holds of the context it was built with is not asked of it.
  constructor
  case body => rw [hdesc, hsame.1]; exact h.body
  case join => rw [hj]; exact hinv.1
  case sync => rw [hj]; exact hinv.2
  case spot =>
    rw [hdesc]
    constructor
    case idle =>
      rw [hj]
      exact fun hidle => absurd hidle hi
    case saved =>
      intro _ hne hon
      rcases hspot with ⟨w, hw⟩ | hn
      · exact absurd hw (hon w)
      · exact absurd hn hne
    case done =>
      rw [hj]
      exact hdone
  case fresh =>
    rw [hj]
    exact fun hidle => absurd hidle hi
  case started => exact fun _ => hruns
  case value =>
    rw [hj]
    exact hvalue
  case slot =>
    rw [hj]
    exact hslot

omit [DecidableEq C] in
/-- A worker switches to a thread whose token was in a queue or among those that
    wait. -/
theorem inv_enter (h : Inv s place) {q : W → List D} {p : List D} {x : Spot K W}
    (hw : s.cur w = none) (hmem : d ∈ tokens s x) (hx : (∃ w', x = .queued w') ∨ x = .parked)
    (htok : tokens { s with queue := q, parked := p } =
      Function.update (tokens s) x ((tokens s x).erase d)) :
    ∃ place', Inv (({ s with queue := q, parked := p } : State K W D C R).enter w d) place' := by
  have hplace : place d = some x := h.placed.mem.mp hmem
  have hnot : ∀ w', x ≠ .on w' := by
    rcases hx with ⟨w', rfl⟩ | rfl <;> simp
  -- The token goes from where it was to the worker.
  have hplaced : Placed (tokens (({ s with queue := q, parked := p } : State K W D C R).run w
      (some d))) (Function.update place d (some (.on w))) := by
    rw [tokens_run, htok]
    have hmove := h.placed.move (y := .on w) hmem (fun he => hnot w he.symm)
    rwa [show tokens s (.on w) = [] by simp [tokens, hw]] at hmove
  by_cases hf : ∃ k, s.body d = .branch k ∧ (s.call k).join.task = .idle
  · -- It enters `branch_entry` and reads the closure, which is this call's.
    obtain ⟨k, hb, hidle⟩ := hf
    obtain ⟨hdesc, ht⟩ := h.branch hb
    obtain ⟨hclosure, hruns⟩ := ht.fresh hidle
    rw [hdesc] at hclosure
    -- The closure is read by no other call than its own.
    have hother : ∀ k', k' ≠ k → Tasked s place k' → (s.call k').desc ≠ d := by
      intro k' hne ht' hd'
      have hb' := ht'.body
      rw [hd', hb] at hb'
      exact hne (Body.branch.inj hb').symm
    rw [enter_fresh (s := { s with queue := q, parked := p }) hb hidle hclosure]
    have ho := (h.owned d k hb).2
    have hlive : (s.call k).join.handle ≠ .reclaim ∧ (s.call k).join.handle ≠ .gone := by
      refine ⟨fun hr => ?_, (h.calls k).not_gone ho⟩
      rw [done_of_taken ht.sync ht.join (Or.inr hr)] at hidle
      cases hidle
    refine ⟨Function.update place d (some (.on w)), h.moved (w := w) (k := k)
      (fun w' hne => Function.update_of_ne hne ..) ⟨rfl, rfl, rfl, rfl⟩
      (fun k' hne => Function.update_of_ne hne ..) (fun _ _ _ _ => not_tops_of_none hw) ?_ ?_
      (h.empty_update hplace _) ?_ ?_⟩
    · rw [tokens_set_same (by rfl) (by rfl)]
      exact hplaced
    · intro d' hb'
      simp only [call_set]
      exact ⟨(h.owned d' k hb').1, (h.owned d' k hb').2⟩
    · intro k' hne ht'
      rw [Function.update_of_ne (hother k' hne ht')]
      exact ht'.spot
    · have hon : Function.update place d (some (Spot.on w)) (s.call k).desc = some (.on w) := by
        rw [hdesc, Function.update_self]
      refine (h.calls k).retask ho (ht.ran (j := Join.next (words D) (s.call k).join .begin)
        (by simp) ⟨Join.inv_next ht.join hidle, sync_begin ht.sync⟩ (by simp) ⟨rfl, rfl⟩ ?_
        (Or.inl ⟨w, hon⟩) ?_ ?_ ?_ ?_) (by simp) (by simp) ?_ ?_
      · exact fun hx => by cases hx
      · exact fun p hp => by cases hp
      · exact ⟨w, by simp [hruns]⟩
      · exact fun hx => by cases hx
      · intro hw
        have hx := (ht.slot hw).1
        rw [hidle] at hx
        cases hx
      · simp only [call_set]
        exact fun hh => hh
      · simp only [call_set]
        exact hlive
  · -- A body that was started goes on: of what is known of its call only the place is new.
    rw [enter_started (s := { s with queue := q, parked := p }) fun k hb hi => hf ⟨k, hb, hi⟩]
    refine ⟨Function.update place d (some (.on w)), h.shifted (w := w)
      (fun w' hne => Function.update_of_ne hne ..) ⟨rfl, rfl, rfl, rfl⟩ rfl
      (fun _ _ _ => not_tops_of_none hw) hplaced (h.empty_update hplace _) ?_⟩
    intro k' ht
    refine spot_update ht fun hd => ?_
    have hs := ht.spot
    have hb := ht.body
    rw [hd, hplace, ← hd] at hs
    rw [hd] at hb
    exact hs.run (fun hi => hf ⟨k', hb, hi⟩) w

theorem inv_dispatch (h : Inv s place) {w' : W} (hg : guard s (.dispatch w w' d)) :
    ∃ place', Inv (next s (.dispatch w w' d)) place' :=
  inv_enter h (p := s.parked) (x := .queued w') hg.1 hg.2 (Or.inl ⟨w', rfl⟩) (tokens_queue s w' _)

theorem inv_handoff (h : Inv s place) (hg : guard s (.handoff w d)) :
    ∃ place', Inv (next s (.handoff w d)) place' :=
  inv_enter h (q := s.queue) (x := .parked) hg.1 hg.2 (Or.inr rfl) (tokens_parked s _)

theorem inv_suspend (h : Inv s place) {c : C} {dest : Option W}
    (hg : guard s (.suspend w u c dest)) (hc : SavedDiffers s (.suspend w u c dest)) :
    ∃ place', Inv (next s (.suspend w u c dest)) place' := by
  obtain ⟨hu, hcode⟩ := hg
  have hon := h.cur_iff.mp hu
  have hmem : u ∈ tokens s (.on w) := h.placed.mem.mpr hon
  -- The worker has one thread, and that is the one that leaves.
  have herase : (tokens s (.on w)).erase u = [] := by simp [tokens, hu]
  have htop : ∀ k' (ra : R), (s.call k').stage = .freed ra → ¬ Tops s w k' :=
    fun k' ra hst => not_tops_of_userCode hu hcode hst
  cases dest with
  | some w' =>
      refine ⟨Function.update place u (some (.queued w')), h.shifted (w := w)
        (fun w'' hne => Function.update_of_ne hne ..) ⟨rfl, rfl, rfl, rfl⟩ rfl htop ?_
        (h.empty_update hon _) (fun k' ht => h.suspends hu hc _ ht)⟩
      change Placed (tokens ((s.run w none).push w' u)) _
      rw [tokens_push, tokens_run]
      have hmove := h.placed.move (y := .queued w') hmem (by simp)
      rw [herase] at hmove
      rwa [Function.update_of_ne (by simp)]
  | none =>
      refine ⟨Function.update place u (some .parked), h.shifted (w := w)
        (fun w'' hne => Function.update_of_ne hne ..) ⟨rfl, rfl, rfl, rfl⟩ rfl htop ?_
        (h.empty_update hon _) (fun k' ht => h.suspends hu hc _ ht)⟩
      change Placed (tokens { s.run w none with parked := u :: s.parked }) _
      rw [tokens_parked, tokens_run]
      have hmove := h.placed.move (y := .parked) hmem (by simp)
      rwa [herase] at hmove

/-- Whoever wakes a thread need be no worker. -/
theorem inv_wake (h : Inv s place) (hg : guard s (.wake w d)) :
    ∃ place', Inv (next s (.wake w d)) place' := by
  have hmem : d ∈ tokens s .parked := hg
  have hplace := h.placed.mem.mp hmem
  refine ⟨Function.update place d (some (.queued w)), h.assemble ?_ h.owned
    (h.empty_update hplace _) ?_⟩
  · change Placed (tokens (({ s with parked := s.parked.erase d } : State K W D C R).push w d)) _
    rw [tokens_push, tokens_parked]
    have hmove := h.placed.move (y := .queued w) hmem (by simp)
    rwa [Function.update_of_ne (by simp)]
  · intro k'
    refine Or.inr ⟨rfl, fun ra _ hf => ⟨hf.body, hf.closure, hf.runs, hf.worker⟩,
      fun ht => ⟨ht.body, rfl, ?_⟩⟩
    refine spot_update ht fun hd => ?_
    have hs := ht.spot
    rw [hd, hplace, ← hd] at hs
    exact hs.carry (by simp) (Or.inl ⟨w, rfl⟩)

omit [DecidableEq K] [DecidableEq W] [DecidableEq C] in
/-- What a thread that runs is, if it is the `b` of a call. -/
theorem Inv.running (h : Inv s place) (hu : s.cur w = some u) (hb : s.body u = .branch k) :
    (s.call k).desc = u ∧ Tasked s place k ∧ Owns (s.call k) ∧
      ∃ w', (s.call k).runs = [some w'] := by
  obtain ⟨hdesc, ht⟩ := h.branch hb
  have hs := ht.spot
  rw [hdesc, h.cur_iff.mp hu] at hs
  exact ⟨hdesc, ht, (h.owned u k hb).2, ht.started (hs.started (by simp) (by simp))⟩

theorem inv_complete (h : Inv s place) {rb : R} (hg : guard s (.complete w u k rb)) :
    ∃ place', Inv (next s (.complete w u k rb)) place' := by
  obtain ⟨hu, hnil, hb, hrun⟩ := hg
  obtain ⟨hdesc, ht, ho, hruns⟩ := h.running hu hb
  have hlive : (s.call k).join.handle ≠ .reclaim ∧ (s.call k).join.handle ≠ .gone := by
    refine ⟨fun hr => ?_, (h.calls k).not_gone ho⟩
    rw [done_of_taken ht.sync ht.join (Or.inr hr)] at hrun
    cases hrun
  have htask : (Join.next (words D) (s.call k).join .complete).task = .handoff := by
    simp [Join.next, Join.effect, ht.sync.kind, Join.Kind.exit]
  refine ⟨place, h.record (l := s.calls) hu (fun _ _ => rfl)
    (fun _ _ _ _ => not_tops_of_nil hu hnil) ⟨rfl, rfl⟩ (h.keeps rfl ho) ?_⟩
  change CallInv (s.set k _) place k
  refine (h.calls k).retask ho (ht.ran (j := Join.next (words D) (s.call k).join .complete)
    (by simp) ⟨Join.inv_next ht.join hrun, sync_task ht.sync ht.join rfl hrun⟩ (by simp)
    ⟨rfl, rfl⟩ (by rw [htask]; simp) (Or.inl ⟨w, hdesc ▸ h.cur_iff.mp hu⟩) ?_ (by simpa using hruns)
    (by simp) ?_) (by simp) (by simp) ?_ ?_
  · rw [htask]
    exact fun p hp => by cases hp
  · -- It has not been written while the thread was running.
    intro hw
    have hx := (ht.slot hw).1
    rw [hrun] at hx
    cases hx
  · simp only [call_set]
    exact fun hh => hh
  · simp only [call_set]
    exact hlive

omit [DecidableEq K] [DecidableEq D] [DecidableEq C] in
theorem run_self (hu : s.cur w = some u) : s.run w (some u) = s := by
  unfold State.run
  rw [← hu, Function.update_eq_self]

omit [DecidableEq C] in
/-- A step of the exit that resumes nobody. -/
theorem inv_exitStep (h : Inv s place) {a : Join.Action (JoinState D) D D} {sl : Option R}
    {o : Option D} (hu : s.cur w = some u) (hnil : s.calls u = []) (hb : s.body u = .branch k)
    (ha : Join.Call.ofTask a = true) (hc : a ≠ .complete) (hr : ∀ t, a ≠ .resume t)
    (hg : Join.guard (words D) (s.call k).join a)
    (hsl : (∀ x, a ≠ .write x) ∧ sl = (s.call k).slot ∨ sl = (s.call k).bVal)
    (ho : o = some u ∧ (∀ p, (Join.next (words D) (s.call k).join a).task ≠ .done p) ∨ o = none) :
    ∃ place', Inv ((s.set k { s.call k with
      join := Join.next (words D) (s.call k).join a, slot := sl }).run w o) place' := by
  obtain ⟨hdesc, ht, hown, hruns⟩ := h.running hu hb
  have hon := h.cur_iff.mp hu
  have hmem : u ∈ tokens s (.on w) := h.placed.mem.mpr hon
  have hwas : tokens s (.on w) = [u] := by simp [tokens, hu]
  -- A step of the exit leaves the handle as it is.
  have hhandle : (Join.next (words D) (s.call k).join a).handle = (s.call k).join.handle :=
    handle_same ha hr
  have hexit := Join.exiting_next hg hc
  have hlive : (s.call k).join.handle ≠ .reclaim ∧ (s.call k).join.handle ≠ .gone := by
    refine ⟨fun hre => ?_, (h.calls k).not_gone hown⟩
    have hs := ht.spot.done _ (done_of_taken ht.sync ht.join (Or.inr hre))
    rw [hdesc, hon] at hs
    cases hs
  -- The slot has the result as soon as it is published.
  have hslot : (Join.next (words D) (s.call k).join a).written = true →
      (Join.next (words D) (s.call k).join a).task.exiting = true ∧ sl = (s.call k).bVal := by
    intro hw
    rw [hexit]
    by_cases hx : ∃ x, a = .write x
    · obtain ⟨x, rfl⟩ := hx
      refine ⟨?_, ?_⟩
      · rw [show (s.call k).join.task = .write x from hg]
        rfl
      · exact hsl.elim (fun hn => absurd rfl (hn.1 x)) id
    · have hnw : ∀ x, a ≠ .write x := fun x he => hx ⟨x, he⟩
      rw [written_task ha hnw] at hw
      obtain ⟨he, hs⟩ := ht.slot hw
      exact ⟨he, hsl.elim (fun hn => hn.2.trans hs) id⟩
  -- The token stays on the worker, or the thread is gone.
  have hplace : ∃ place' : D → Option (Spot K W),
      Placed (Function.update (tokens s) (.on w) o.toList) place' ∧
      (∀ d, d ≠ u → place' d = place d) ∧
      ((∃ w, place' u = some (.on w)) ∨ place' u = none) ∧
      ∀ p, (Join.next (words D) (s.call k).join a).task = .done p → place' u = none := by
    rcases ho with ⟨rfl, hnd⟩ | rfl
    · refine ⟨place, ?_, fun _ _ => rfl, Or.inl ⟨w, hon⟩, fun p hp => absurd hp (hnd p)⟩
      rw [show (some u).toList = tokens s (.on w) from hwas.symm, Function.update_eq_self]
      exact h.placed
    · refine ⟨Function.update place u none, ?_, fun d hd => Function.update_of_ne hd ..,
        Or.inr (Function.update_self ..), fun _ _ => Function.update_self ..⟩
      have htake := h.placed.take hmem
      rwa [hwas, List.erase_cons_head] at htake
  obtain ⟨place', hplaced, hother, hspot, hdone⟩ := hplace
  refine ⟨place', h.moved (w := w) (k := k) (fun w' hne => Function.update_of_ne hne ..)
    ⟨rfl, rfl, rfl, rfl⟩ (fun k' hne => Function.update_of_ne hne ..)
    (fun _ _ _ _ => not_tops_of_nil hu hnil) ?_ ?_ ?_ ?_ ?_⟩
  · rw [tokens_run, tokens_set_same]
    · exact hplaced
    · rfl
    · simp [Call.waiting, hhandle]
  · intro d hb'
    simp only [call_run, call_set]
    refine ⟨(h.owned d k hb').1, ?_⟩
    have hown' := hown
    unfold Owns at hown' ⊢
    dsimp only
    rw [hhandle]
    exact hown'
  · intro d hb'
    have hd : d ≠ u := by
      rintro rfl
      obtain ⟨hf, he⟩ := h.in_use hon
      exact hb'.elim hf he
    rw [hother d hd]
    exact h.empty d hb'
  · intro k' hne ht'
    have hd : (s.call k').desc ≠ u := by
      intro hd
      have hb' := ht'.body
      rw [hd, hb] at hb'
      exact hne (Body.branch.inj hb').symm
    rw [hother _ hd]
    exact ht'.spot
  · refine (h.calls k).retask hown (ht.ran (j := Join.next (words D) (s.call k).join a)
      (by simp) ⟨Join.inv_next ht.join hg, sync_task ht.sync ht.join ha hg⟩ (by simp) ⟨rfl, rfl⟩
      ?_ (by rw [hdesc]; exact hspot) (by rw [hdesc]; exact hdone) (by simpa using hruns) ?_ ?_)
      (by simp) (by simp) ?_ ?_
    · intro hi
      have hst := (Join.Call.started_task ha hg).2
      rw [hi] at hst
      cases hst
    · rw [hexit]
      simpa using ht.value
    · simpa using hslot
    · simp only [call_run, call_set]
      exact hhandle.trans
    · simp only [call_run, call_set, hhandle]
      exact hlive

omit [DecidableEq C] in
/-- The exit gives the joiner a worker, or pushes it. -/
theorem inv_exitResume (h : Inv s place) {t : D} {direct : Bool} (hu : s.cur w = some u)
    (hnil : s.calls u = []) (hb : s.body u = .branch k)
    (hg : (s.call k).join.task = .resume t) :
    ∃ place', Inv (s.exits w u k (.resume t) direct) place' := by
  obtain ⟨hdesc, ht, hown, hruns⟩ := h.running hu hb
  have hon := h.cur_iff.mp hu
  have hmem : u ∈ tokens s (.on w) := h.placed.mem.mpr hon
  have hwas : tokens s (.on w) = [u] := by simp [tokens, hu]
  -- The joiner is the caller of this `b`, and waits in the join word.
  have hparked : (s.call k).join.handle = .parked t := parked_of_resume ht.join hg
  have hwait : tokens s (.joining k) = [t] := by simp [tokens, Call.waiting, hparked]
  have htmem : t ∈ tokens s (.joining k) := by simp [hwait]
  have htplace : place t = some (.joining k) := h.placed.mem.mp htmem
  have htu : t ≠ u := by
    rintro rfl
    rw [hon] at htplace
    simp at htplace
  have hsync := sync_task (a := .resume t) ht.sync ht.join rfl hg
  have htask : (Join.next (words D) (s.call k).join (.resume t)).task = .done true := by
    simp [Join.next, Join.effect, ht.sync.kind, Join.Kind.leave]
  have hhandle : (Join.next (words D) (s.call k).join (.resume t)).handle = .take := by
    simp [Join.next, Join.effect, hparked]
  have hwritten := written_task (j := (s.call k).join) (a := .resume t) rfl (by simp)
  -- The thread is gone, and the joiner is on.
  have hmain : ∀ (s' : State K W D C R) (x : Spot K W), (∀ w', w' ≠ w → s'.cur w' = s.cur w') →
      (s'.calls = s.calls ∧ s'.body = s.body ∧ s'.closure = s.closure ∧ s'.pool = s.pool) →
      s'.ctx = s.ctx →
      s'.call = Function.update s.call k
        { s.call k with join := Join.next (words D) (s.call k).join (.resume t) } →
      ((∃ w', x = .queued w') ∨ ∃ w', x = .on w') →
      Placed (tokens s') (Function.update (Function.update place u none) t (some x)) →
      Inv s' (Function.update (Function.update place u none) t (some x)) := by
    intro s' x hcur hsame hctx hcall hx hplaced
    have hself : s'.call k =
        { s.call k with join := Join.next (words D) (s.call k).join (.resume t) } := by
      rw [hcall, Function.update_self]
    have hgone : Function.update (Function.update place u none) t (some x) (s.call k).desc =
        none := by
      rw [hdesc, Function.update_of_ne (Ne.symm htu), Function.update_self]
    refine h.moved (w := w) (k := k) hcur hsame ?_ (fun _ _ _ _ => not_tops_of_nil hu hnil)
      hplaced ?_ ?_ ?_ ?_
    · intro k' hne
      rw [hcall, Function.update_of_ne hne]
    · intro d hb'
      rw [hself]
      refine ⟨(h.owned d k hb').1, ?_⟩
      unfold Owns at hown ⊢
      dsimp only
      rw [hhandle]
      cases hst : (s.call k).stage <;> rw [hst] at hown <;> simp_all
    · intro d hb'
      have hd : ∀ y, place d = some y → False := by
        intro y hy
        obtain ⟨hf, he⟩ := h.in_use hy
        exact hb'.elim hf he
      have hdt : d ≠ t := fun he => hd _ (he ▸ htplace)
      have hdu : d ≠ u := fun he => hd _ (he ▸ hon)
      rw [Function.update_of_ne hdt, Function.update_of_ne hdu]
      exact h.empty d hb'
    · intro k' hne ht'
      have hd : (s.call k').desc ≠ u := by
        intro hd
        have hb' := ht'.body
        rw [hd, hb] at hb'
        exact hne (Body.branch.inj hb').symm
      rw [hctx]
      by_cases hdt : (s.call k').desc = t
      · have hs := ht'.spot
        rw [hdt, htplace, ← hdt] at hs
        rw [hdt, Function.update_self, ← hdt]
        rcases hx with ⟨w', rfl⟩ | ⟨w', rfl⟩
        · exact hs.carry (by simp) (Or.inl ⟨w', rfl⟩)
        · exact hs.run (hs.started (by simp) (by simp)) w'
      · rw [Function.update_of_ne hdt, Function.update_of_ne hd]
        exact ht'.spot
    · refine (h.calls k).retask hown (ht.ran (j := _) (by rw [hself])
        ⟨Join.inv_next (a := .resume t) ht.join hg, hsync⟩ (by rw [hself]; exact ⟨rfl, rfl⟩)
        ⟨hsame.2.1, hsame.2.2.1⟩ (by rw [htask]; simp) (Or.inr hgone) (fun _ _ => hgone)
        (by rw [hself]; exact hruns) ?_ ?_) (by rw [hself]) (by rw [hself]) ?_ ?_
      · rw [hself]
        exact fun _ => ht.value (by rw [hg]; rfl)
      · rw [hself, hwritten, htask]
        exact fun hw => ⟨rfl, (ht.slot hw).2⟩
      · rw [hparked]
        exact fun hh => by cases hh
      · rw [hself, hhandle]
        exact ⟨by simp, by simp⟩
  -- Its token leaves the join, and the token of `b` is no more.
  have hset : tokens (s.set k { s.call k with
      join := Join.next (words D) (s.call k).join (.resume t) }) =
      Function.update (tokens s) (.joining k) [] := by
    rw [tokens_wait (by rfl)]
    simp [Call.waiting, hhandle]
  have htake := h.placed.take hmem
  rw [hwas, List.erase_cons_head] at htake
  have htmem' : t ∈ Function.update (tokens s) (Spot.on w) [] (Spot.joining k) := by
    rw [Function.update_of_ne (by simp)]
    exact htmem
  have hwait' : (Function.update (tokens s) (Spot.on w) [] (Spot.joining k)).erase t = [] := by
    rw [Function.update_of_ne (by simp), hwait, List.erase_cons_head]
  -- The joiner is entered at once, or pushed.
  cases direct with
  | true =>
      refine ⟨_, hmain ((s.set k _).run w (some t)) (.on w)
        (fun w' hne => Function.update_of_ne hne ..) ⟨rfl, rfl, rfl, rfl⟩ rfl rfl
        (Or.inr ⟨w, rfl⟩) ?_⟩
      have hmove := htake.move (y := .on w) htmem' (by simp)
      have hne : (Spot.on w : Spot K W) ≠ .joining k := by simp
      rw [hwait', Function.update_self, Function.update_comm hne, Function.update_idem] at hmove
      rw [tokens_run, hset]
      exact hmove
  | false =>
      refine ⟨_, hmain (((s.set k _).run w none).push w t) (.queued w)
        (fun w' hne => Function.update_of_ne hne ..) ⟨rfl, rfl, rfl, rfl⟩ rfl rfl
        (Or.inl ⟨w, rfl⟩) ?_⟩
      have hmove := htake.move (y := .queued w) htmem' (by simp)
      have hne : (Spot.on w : Spot K W) ≠ .joining k := by simp
      rw [hwait', Function.update_comm hne] at hmove
      rw [tokens_push, tokens_run, hset]
      simpa using hmove

omit [DecidableEq C] in
/-- A step of the exit that neither writes the result, nor resumes, nor frees. -/
theorem exits_eq {a : Join.Action (JoinState D) D D} {direct : Bool} (hwrite : ∀ x, a ≠ .write x)
    (hresume : ∀ t, a ≠ .resume t) (hfree : ∀ p, a ≠ .free p) :
    s.exits w u k a direct = (match (Join.next (words D) (s.call k).join a).task with
      | .done _ => (s.set k { s.call k with
          join := Join.next (words D) (s.call k).join a }).run w none
      | _ => s.set k { s.call k with join := Join.next (words D) (s.call k).join a }) := by
  unfold State.exits
  generalize Join.next (words D) (s.call k).join a = j
  dsimp only
  generalize j.task = t
  cases a with
  | write x => exact absurd rfl (hwrite x)
  | resume t => exact absurd rfl (hresume t)
  | free p => exact absurd rfl (hfree p)
  | _ => cases t <;> rfl

theorem inv_exit (h : Inv s place) {a : Join.Action (JoinState D) D D} {direct : Bool}
    (hg : guard s (.exit w u k a direct)) :
    ∃ place', Inv (next s (.exit w u k a direct)) place' := by
  obtain ⟨hu, hnil, hb, ⟨ha, hc⟩, hj⟩ := hg
  obtain ⟨hdesc, ht, -, -⟩ := h.running hu hb
  have htask := ht.sync.task
  -- Every other step goes on, or is the last.
  have hstep (hresume : ∀ x, a ≠ .resume x) (hwrite : ∀ x, a ≠ .write x)
      (hfree : ∀ p, a ≠ .free p) : ∃ place', Inv (s.exits w u k a direct) place' := by
    rw [exits_eq hwrite hresume hfree]
    split
    · exact inv_exitStep h hu hnil hb ha hc hresume hj (Or.inl ⟨hwrite, rfl⟩) (Or.inr rfl)
    · rename_i hnd
      have hstay := inv_exitStep h hu hnil hb ha hc hresume hj (Or.inl ⟨hwrite, rfl⟩)
        (Or.inl ⟨rfl, fun p hp => hnd p hp⟩)
      rwa [run_self (s := s.set k _) hu] at hstay
  change ∃ place', Inv (s.exits w u k a direct) place'
  cases a with
  | resume t => exact inv_exitResume h hu hnil hb hj
  | write x =>
      have hstay := inv_exitStep h hu hnil hb ha hc (by simp) hj (Or.inr rfl)
        (Or.inl ⟨rfl, fun p hp => by cases x <;> cases hp⟩)
      rwa [run_self (s := s.set k _) hu] at hstay
  | complete => exact absurd rfl hc
  | free p =>
      rw [show (s.call k).join.task = _ from hj] at htask
      cases htask
  | pending | handoffLoad | abandonedLoad | commitFinished t | swap | wake t | claim t
  | dropResult p | dropWaker p => exact hstep nofun nofun nofun
  | _ => cases ha

theorem inv_exitPlain (h : Inv s place) (hg : guard s (.exitPlain w u)) :
    ∃ place', Inv (next s (.exitPlain w u)) place' := by
  obtain ⟨hu, hnil, hb⟩ := hg
  have hon := h.cur_iff.mp hu
  have hmem : u ∈ tokens s (.on w) := h.placed.mem.mpr hon
  -- A plain thread is no call's `b`.
  have hne : ∀ d k', s.body d = .branch k' → d ≠ u := by
    rintro d k' hb' rfl
    rw [hb] at hb'
    cases hb'
  have hbody : ∀ d, d ≠ u → (next s (.exitPlain w u)).body d = s.body d :=
    fun d hd => Function.update_of_ne hd ..
  have hlocal : Local s (next s (.exitPlain w u)) w := by
    constructor
    case cur => exact fun w' hw => Function.update_of_ne hw ..
    case calls => exact fun _ _ _ _ => rfl
    case pool =>
      intro w' d _ hf hp
      have hd : d ≠ u := by
        rintro rfl
        rw [hb] at hf
        cases hf
      exact ⟨(hbody d hd).trans hf, rfl, hp⟩
  refine ⟨Function.update place u none, h.assemble ?_ ?_ ?_ ?_⟩
  · change Placed (tokens (s.run w none)) _
    rw [tokens_run]
    have htake := h.placed.take hmem
    rwa [show tokens s (.on w) = [u] by simp [tokens, hu], List.erase_cons_head] at htake
  · intro d k' hb'
    have hd : d ≠ u := by
      rintro rfl
      exact absurd ((Function.update_self ..).symm.trans hb') (by simp)
    rw [hbody d hd] at hb'
    exact h.owned d k' hb'
  · intro d hb'
    by_cases hd : d = u
    · rw [hd, Function.update_self]
    · rw [hbody d hd] at hb'
      rw [Function.update_of_ne hd]
      exact h.empty d hb'
  · intro k'
    refine Or.inr ⟨rfl, fun ra _ hf => hf.frame hlocal (not_tops_of_nil hu hnil) rfl,
      fun ht => ?_⟩
    have hd := hne _ _ ht.body
    rw [hbody _ hd, Function.update_of_ne hd]
    exact ⟨ht.body, rfl, ht.spot⟩

theorem inv_release (h : Inv s place) (hg : guard s (.release w d)) :
    ∃ place', Inv (next s (.release w d)) place' := by
  obtain ⟨hcode, hb⟩ := hg
  have hbody : ∀ d', d' ≠ d → (next s (.release w d)).body d' = s.body d' :=
    fun d' hd => Function.update_of_ne hd ..
  -- The descriptor goes back to the pool of `w`, and nobody's token is at it.
  have hlocal : Local s (next s (.release w d)) w := by
    constructor
    case cur => exact fun _ _ => rfl
    case calls => exact fun _ _ _ _ => rfl
    case pool =>
      intro w' d' _ hf hp
      have hd : d' ≠ d := by
        rintro rfl
        rw [hb] at hf
        cases hf
      exact ⟨(hbody d' hd).trans hf, rfl, (Function.update_of_ne hd ..).trans hp⟩
  refine ⟨place, h.assemble h.placed ?_ ?_ ?_⟩
  · intro d' k' hb'
    have hd : d' ≠ d := by
      rintro rfl
      exact absurd ((Function.update_self ..).symm.trans hb') (by simp)
    rw [hbody d' hd] at hb'
    exact h.owned d' k' hb'
  · intro d' hb'
    by_cases hd : d' = d
    · rw [hd]
      exact h.empty d (Or.inr hb)
    · rw [hbody d' hd] at hb'
      exact h.empty d' hb'
  · intro k'
    refine Or.inr ⟨rfl, fun ra hst hf => hf.frame hlocal (not_tops_of_coding hcode hst) rfl,
      fun ht => ?_⟩
    have hd : (s.call k').desc ≠ d := by
      intro hd
      have hb' := ht.body
      rw [hd, hb] at hb'
      cases hb'
    rw [hbody _ hd]
    exact ⟨ht.body, rfl, ht.spot⟩

theorem inv_flush (h : Inv s place) (hg : guard s (.flush w d)) :
    ∃ place', Inv (next s (.flush w d)) place' := by
  obtain ⟨hcode, hp⟩ := hg
  have hlocal : Local s (next s (.flush w d)) w := by
    constructor
    case cur => exact fun _ _ => rfl
    case calls => exact fun _ _ _ _ => rfl
    case pool =>
      intro w' d' hne hf hp'
      have hd : d' ≠ d := by
        rintro rfl
        exact hne (Option.some.inj (hp'.symm.trans hp))
      exact ⟨hf, rfl, (Function.update_of_ne hd ..).trans hp'⟩
  refine ⟨place, h.assemble h.placed h.owned h.empty fun k' => ?_⟩
  exact Or.inr ⟨rfl, fun ra hst hf => hf.frame hlocal (not_tops_of_coding hcode hst) rfl,
    fun ht => ⟨ht.body, rfl, ht.spot⟩⟩

end Threads

theorem inv_next {a : Action K W D C R} (h : Inv s place) (hg : guard s a)
    (hc : SavedDiffers s a) : ∃ place', Inv (next s a) place' := by
  cases a with
  | spawn w d => exact inv_spawn h hg
  | call w u k d c => exact inv_call h hg
  | aReturns w u k ra => exact inv_aReturns h hg
  | aPanics w u k => exact inv_aPanics h hg
  | pop w u k ra o => exact inv_pop h hg
  | decide w u k ra d => exact inv_decide h hg
  | read w u k ra => exact inv_read h hg
  | inlineReturns w u k ra rb => exact inv_inlineReturns h hg
  | join w u k ra rb a c => exact inv_join h hg hc
  | leave w u k ra rb => exact inv_leave h hg
  | dispatch w w' d => exact inv_dispatch h hg
  | suspend w u c dest => exact inv_suspend h hg hc
  | wake w d => exact inv_wake h hg
  | handoff w d => exact inv_handoff h hg
  | complete w u k rb => exact inv_complete h hg
  | exit w u k a direct => exact inv_exit h hg
  | exitPlain w u => exact inv_exitPlain h hg
  | release w d => exact inv_release h hg
  | flush w d => exact inv_flush h hg

omit [DecidableEq K] [DecidableEq W] [DecidableEq C] in
theorem inv_init (h : init s) : Inv s fun _ => none := by
  obtain ⟨hk, hd, hw, hp⟩ := h
  -- There is no token anywhere.
  have htok : ∀ x, tokens s x = [] := by
    intro x
    cases x with
    | queued w => exact (hw w).1
    | on w => simp [tokens, (hw w).2]
    | parked => exact hp
    | held k => simp [tokens, Call.held, (hk k).1]
    | joining k => simp [tokens, Call.waiting, (hk k).2]
  constructor
  case placed =>
    refine ⟨fun x n => ?_, fun x => ?_⟩
    · rw [htok]
      simp
    · rw [htok]
      exact List.nodup_nil
  case owned =>
    intro d k hb
    rw [(hd d).1] at hb
    cases hb
  case empty => exact fun _ _ => rfl
  case calls =>
    intro k
    unfold CallInv
    rw [(hk k).1]
    exact (hk k).2

theorem inv_reachable (hr : system.ReachableIf SavedDiffers s) : ∃ place, Inv s place :=
  hr.induct (P := fun s => ∃ place, Inv s place) (fun _ hi => ⟨_, inv_init hi⟩)
    (fun _ _ ⟨_, h⟩ hg hc => inv_next h hg hc)

/-- One worker and nothing to run. -/
def start : State ℕ Unit ℕ ℕ ℕ where
  call _ := ⟨0, 0, .unmade, built ℕ, none, none, none, []⟩
  body _ := .free
  closure _ := none
  ctx _ := 0
  calls _ := []
  pool _ := none
  queue _ := []
  cur _ := none
  parked := []

theorem init_start : init start :=
  ⟨fun _ => ⟨rfl, rfl⟩, fun _ => ⟨rfl, rfl⟩, fun _ => ⟨rfl, rfl⟩, rfl⟩

theorem reachable_run (as : List (Action ℕ Unit ℕ ℕ ℕ)) (hl : system.Legal start as)
    (hc : system.Along SavedDiffers start as) :
    system.ReachableIf SavedDiffers (system.run start as) :=
  system.reachableIf_run as start (.init start init_start) hl hc

/-- The caller pops `b` and runs it. -/
def unstolen : List (Action ℕ Unit ℕ ℕ ℕ) :=
  [.spawn () 0, .dispatch () () 0, .call () 0 0 1 100, .aReturns () 0 0 3,
    .pop () 0 0 3 (some 1), .decide () 0 0 3 1, .read () 0 0 3, .inlineReturns () 0 0 3 7]

/-- `a` yields, and the worker goes on with `b`. -/
def yielded : List (Action ℕ Unit ℕ ℕ ℕ) :=
  [.spawn () 0, .dispatch () () 0, .call () 0 0 1 100, .suspend () 0 5 (some ()),
    .dispatch () () 1, .complete () 1 0 7, .exit () 1 0 .handoffLoad false,
    .exit () 1 0 .abandonedLoad false, .exit () 1 0 (.write none) false,
    .exit () 1 0 .swap false, .dispatch () () 0, .aReturns () 0 0 3, .pop () 0 0 3 none,
    .join () 0 0 3 none (.join 0) 6, .join () 0 0 3 none (.isFinished 0) 6,
    .join () 0 0 3 none .take 6, .join () 0 0 3 (some 7) .reclaim 6, .leave () 0 0 3 (some 7)]

end Fork

end Cmpth

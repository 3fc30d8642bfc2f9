import Cmpth.Scoped.Values

/-!
# Steps Keep the History

Each step of the engine keeps what its history says of it.

A branch does not panic, so unwinding meets only `catch_unwind`s and the root,
and no frame of a call is left before its task is consumed. The memory of a
task belongs to one worker at a time, so a step that writes to it disturbs
nobody else.

## Theorems

* `fresh_of_closure`, `begun_eq`: A worker inside a closure begins no task.
* `Worker.Fits.closure`: The frames below a closure's are neither setting nor reading a latch.
* `Faithful.closure`: A worker goes on with a closure.
* `Faithful.replace`: The topmost frame goes on as another of the same call.
* `Worker.Faithful.starts_eq`: Above the topmost frame a closure runs, so its task is begun.
* `Faithful.goes`: A closure goes on, on a stack whose frames were there before.
* `faithful_start`, `faithful_ret`, `faithful_unwind`, `faithful_advance`: The steps of a worker,
  one by one.
* `faithful_inlined`: The second branch was run inline, and the call's frame is left.
* `Faithful.ends`: A thread's function returns, or its panic ends it.
* `Faithful.congr`, `Worker.mem_uses`: What the invariant is about.
* `Faithful.owns_of_unwind`: A panic has only `catch_unwind`s and the root below it.
* `faithful_pop`: A pop after `a` gets the call's own task, or finds the queue empty.
* `Inv.not_queued`: The task a frame is at work on is not queued.
* `Faithful.begin`: The closure of a task is taken once.
* `faithful_publish`: `execute_trampoline` writes the result.
* `faithful_setLatch`: `execute_trampoline` sets the latch.
* `Faithful.taken`: A call that has seen its latch finds the second branch's value.
* `faithful_take`: `take_result`, and the call's frame is left.
* `faithful_seek`: A round of a loop that looks for work.
* `faithful_join`: No thread that `shutdown` joins was lost to a panic.
* `Inv.unmentioned`: Nobody mentions a task that is not there.
* `opens_of_ne`, `opens_self`: The history with one more call.
* `Worker.Faithful.opens`: The caller of a new call, where `hold` says that the history of the calls
  below is as it was.
* `faithful_call`: A new call's history begins with it.
* `fits_pending`: The second branch of a call in progress has a value.
* `faithful_dropLast`: The victim of a steal: its queue's oldest task is gone.
* `faithful_steal`: A thief takes a closure that its pusher counts on.
* `faithful_next`: Each operation keeps the history faithful.
* `faithful_started`: The history at the beginning.
-/

namespace Cmpth

namespace Scoped

variable {W A V : Type*} [DecidableEq W] {w₀ : W} {out : Option V} {s s' : State W A V}
  {l l' : Log A V}

/-- A closure runs, or has just ended. -/
def Control.closure : Control V → Bool
  | .run _ | .ret _ | .unwind => true
  | _ => false

/-- The frame may be resumed with nothing to be known of its task. -/
def Frame.calm : Frame W A V → Bool
  | .inline .. | .exec _ | .setLatch _ | .catchUnwind _ => false
  | _ => true

omit [DecidableEq W] in
theorem fresh_of_closure {wk : Worker W A V} (h : wk.ctl.closure = true) : wk.fresh = none := by
  unfold Worker.fresh
  split
  · rename_i hctl _
    rw [hctl] at h
    cases h
  · rename_i hctl _
    rw [hctl] at h
    cases h
  · rfl

omit [DecidableEq W] in
/-- The frames below a closure's are neither setting nor reading a latch. -/
theorem Worker.Fits.closure {fst snd : A → Prog V} {w : W} {wk : Worker W A V}
    (h : wk.Fits w₀ out fst snd w) (hc : wk.ctl.closure = true) :
    ∃ r, Scoped.Fits w₀ out fst snd w (some r) wk.stack := by
  unfold Worker.Fits at h
  cases hctl : wk.ctl with
  | run p =>
      rw [hctl] at h
      obtain ⟨r, -, hst⟩ := h
      exact ⟨r, hst⟩
  | ret v | unwind =>
      rw [hctl] at h
      exact ⟨_, h⟩
  | step | exited | dead =>
      rw [hctl] at hc
      cases hc

omit [DecidableEq W] in
theorem begun_eq {wk : Worker W A V} (h : wk.fresh = none) :
    wk.begun = wk.stack.filterMap Frame.begun := by
  unfold Worker.begun
  rw [h]

/-- A worker goes on with a closure. -/
theorem Faithful.closure (h : Faithful w₀ out s l) (w : W) {st' : List (Frame W A V)}
    {c : Control V} (hworker : s'.worker = Function.update s.worker w
      { s.worker w with stack := st', ctl := c })
    (hinv : Inv s') (hrun : s'.aborted = s.aborted)
    (hlog : l'.fst = l.fst ∧ l'.snd = l.snd ∧ l'.entry = l.entry ∧ l'.robbed = l.robbed)
    (hc : c.closure = true)
    (hfits : Worker.Fits w₀ out l.fst l.snd w { s.worker w with stack := st', ctl := c })
    (hheld : Held l.entry (s.worker w).deque st')
    (hframes : ∀ g ∈ st', g ∈ (s.worker w).stack ∨ g.owns = none)
    (hbegun : ∀ t ∈ st'.filterMap Frame.begun, l'.starts t = 1)
    (hqueued : ∀ t ∈ (s.worker w).deque, Ready s' l' t)
    (huses : ∀ t, (s'.task t = s.task t ∧ l'.starts t = l.starts t) ∨ t ∈ (s.worker w).uses)
    (hlatched : ∀ t, (s'.task t).live = true → (s'.task t).latch = true → Done s' l' t)
    (honce : ∀ t, l'.starts t ≤ 1) : Faithful w₀ out s' l' := by
  obtain ⟨hfst, hsnd, hentry, hrobbed⟩ := hlog
  -- A worker inside a closure is about to begin no other.
  have hfresh : Worker.fresh { s.worker w with stack := st', ctl := c } = none :=
    fresh_of_closure hc
  obtain ⟨r, hr⟩ := hfits.closure hc
  refine h.update hinv w _ hworker ⟨?_, ?_, ?_, hqueued, ?_, ?_, ?_, ?_⟩ ?_ ?_ ?_ hlatched
    honce hrun
  · rw [hfst, hsnd]
    exact hfits
  · rw [hentry]
    exact hheld
  · intro g hg t ht y hy
    rw [hentry] at hy
    rw [hrobbed]
    rcases hframes g hg with hold | hnone
    · exact (h.ok w).robbed g hold t ht y hy
    · rw [hnone] at ht
      cases ht
  · intro t ht
    rw [hfresh] at ht
    cases ht
  · intro t ht
    rw [begun_eq hfresh] at ht
    exact hbegun t ht
  · intro t st hst
    change st' = _ at hst
    change Fits w₀ out l.fst l.snd w (some r) st' at hr
    rw [hst] at hr
    exact hr.elim
  · intro t ra k st hst
    change st' = _ at hst
    change Fits w₀ out l.fst l.snd w (some r) st' at hr
    rw [hst] at hr
    exact hr.elim
  · exact fun t => Or.inl ⟨by rw [hfst], by rw [hsnd]⟩
  · exact fun t => Or.inl ⟨by rw [hentry], by rw [hrobbed]⟩
  · intro t
    -- Tasks that others use are as they were.
    rcases huses t with hsame | hmem
    · exact Or.inl hsame
    · exact Or.inr fun w' hw' ht => hw' (h.inv.uses_unique ht hmem)

/-- The topmost frame goes on as a frame that needs nothing of its task. -/
theorem Faithful.replace (h : Faithful w₀ out s l) (w : W) {f g : Frame W A V}
    {st : List (Frame W A V)} (hst : (s.worker w).stack = f :: st)
    (hinv : Inv (s.go w (g :: st) .step)) (hfresh : (s.worker w).fresh = none)
    (hfits : Fits w₀ out l.fst l.snd w none (g :: st)) (hf : ∀ k, f ≠ .catchUnwind k)
    (hg : g.calm = true) (howns : g.owns = f.owns)
    (hkeeps : g.keeps l.entry ⊆ f.keeps l.entry) (hd : (s.worker w).deque <+: g.keeps l.entry)
    (hbegun : ∀ t, g.begun = some t → f.begun = some t)
    (hseen : ∀ t ra k, g = .take t ra k → (s.task t).latch = true) :
    Faithful w₀ out (s.go w (g :: st) .step) l := by
  have hok := h.ok w
  -- The new frame begins nothing, and asks for no more than the one before it.
  have hnew : Worker.fresh { s.worker w with stack := g :: st, ctl := .step } = none := by
    cases g <;> simp_all [Frame.calm, Worker.fresh]
  have hg' : ∀ k, g ≠ .catchUnwind k := by
    rintro k rfl
    cases hg
  refine h.update hinv w _ rfl ⟨hfits, ?_, ?_, hok.queued, ?_, ?_, ?_, ?_⟩ ?_ ?_ ?_ h.latched
    h.once rfl
  · have hheld := hok.held
    rw [hst, held_cons hf] at hheld
    exact (held_cons hg').mpr ⟨hd, howns ▸ hheld.2⟩
  · intro f' hf' t ht y hy
    rcases List.mem_cons.mp hf' with rfl | hmem
    · exact hok.robbed f (hst ▸ List.mem_cons_self) t (howns ▸ ht) y (hkeeps hy)
    · exact hok.robbed f' (hst ▸ List.mem_cons_of_mem _ hmem) t ht y hy
  · intro t ht
    rw [hnew] at ht
    cases ht
  · intro t ht
    rw [begun_eq hnew] at ht
    refine hok.begun t ?_
    rw [begun_eq hfresh, hst]
    rcases List.mem_filterMap.mp ht with ⟨f', hf', ht'⟩
    rcases List.mem_cons.mp hf' with rfl | hmem
    · exact List.mem_filterMap.mpr ⟨f, List.mem_cons_self, hbegun t ht'⟩
    · exact List.mem_filterMap.mpr ⟨f', List.mem_cons_of_mem _ hmem, ht'⟩
  · intro t st' hst'
    change g :: st = _ at hst'
    rw [List.cons.injEq] at hst'
    rw [hst'.1] at hg
    cases hg
  · intro t ra k st' hst'
    change g :: st = _ at hst'
    rw [List.cons.injEq] at hst'
    exact hseen t ra k hst'.1
  · exact fun t => Or.inl ⟨rfl, rfl⟩
  · exact fun t => Or.inl ⟨rfl, rfl⟩
  · exact fun t => Or.inl ⟨rfl, rfl⟩

omit [DecidableEq W] in
/-- Above the topmost frame a closure runs, so its task is begun. -/
theorem Worker.Faithful.starts_eq {w : W} {wk : Worker W A V}
    (h : wk.Faithful w₀ out s l w) (hc : wk.ctl.closure = true) {f : Frame W A V} {t : A}
    (hf : f ∈ wk.stack) (ht : f.begun = some t) : l.starts t = 1 := by
  refine h.begun t ?_
  rw [begun_eq (fresh_of_closure hc)]
  exact List.mem_filterMap.mpr ⟨f, hf, ht⟩

/-- A closure goes on, on a stack whose frames were there before. -/
theorem Faithful.goes (h : Faithful w₀ out s l) (w : W) {st' : List (Frame W A V)}
    {c : Control V} (hinv : Inv (s.go w st' c)) (hctl : (s.worker w).ctl.closure = true)
    (hc : c.closure = true)
    (hfits : Worker.Fits w₀ out l.fst l.snd w { s.worker w with stack := st', ctl := c })
    (hheld : Held l.entry (s.worker w).deque st')
    (hframes : ∀ g ∈ st', g ∈ (s.worker w).stack ∨ (g.owns = none ∧ g.begun = none)) :
    Faithful w₀ out (s.go w st' c) l := by
  refine h.closure w rfl hinv rfl ⟨rfl, rfl, rfl, rfl⟩ hc hfits hheld ?_ ?_ (h.ok w).queued
    (fun t => Or.inl ⟨rfl, rfl⟩) h.latched h.once
  · exact fun g hg => (hframes g hg).imp_right And.left
  · intro t ht
    rcases List.mem_filterMap.mp ht with ⟨g, hg, hgt⟩
    rcases hframes g hg with hold | ⟨-, hnone⟩
    · exact (h.ok w).starts_eq hctl hold hgt
    · rw [hnone] at hgt
      cases hgt

theorem faithful_start (h : Faithful w₀ out s l) (w : W) (p : Prog V)
    (hctl : (s.worker w).ctl = .run p) :
    Faithful w₀ out (start s w p (s.worker w).stack) l := by
  have hok := h.ok w
  have hinv := inv_start h.inv w p
  have hclosure : (s.worker w).ctl.closure = true := by
    rw [hctl]
    rfl
  have hfits := hok.fits
  simp only [Worker.Fits, hctl] at hfits
  obtain ⟨r, hr, hst⟩ := hfits
  cases p with
  | parallelCall a b k => exact h
  | ret v | panic =>
      cases hr
      exact h.goes w hinv hclosure rfl hst hok.held fun g hg => Or.inl hg
  | catchUnwind p k =>
      refine h.goes w hinv hclosure rfl ?_ hok.held ?_
      · -- What `p` comes to is what the handler gets.
        simp only [Prog.eval] at hr
        split at hr
        · rename_i r' hp
          exact ⟨r', hp, r, hr, hst⟩
        · cases hr
      · intro g hg
        rcases List.mem_cons.mp hg with rfl | hmem
        · exact Or.inr ⟨rfl, rfl⟩
        · exact Or.inl hmem

variable [DecidableEq A]

/-- The second branch was run inline, and the call's frame is left. -/
theorem faithful_inlined (h : Faithful w₀ out s l) (w : W) {v : V}
    (hctl : (s.worker w).ctl = .ret v) {t : A} {ra : V} {k : V → V → Prog V}
    {st : List (Frame W A V)} (hst : (s.worker w).stack = .inline t ra k :: st) :
    Faithful w₀ out ((s.leave t).go w st (.run (k ra v))) l := by
  have hok := h.ok w
  have hinv := inv_ret h.inv w v
  rw [hst] at hinv
  have hfits := hok.fits
  simp only [Worker.Fits, hctl, hst] at hfits
  obtain ⟨hsnd, -, rb, r, hrb, hr, hrest⟩ := hfits
  -- The closure that was run is `b`, so its value is the one that the history expects.
  have hv : v = rb := by
    rw [hsnd] at hrb
    simpa using hrb
  subst hv
  have hheld := hok.held
  rw [hst, held_cons (by nofun)] at hheld
  -- Of the tasks only the call's own is left.
  have htask : ∀ t', (s.leave t).task t' = s.task t' ∨ t' = t := by
    intro t'
    by_cases heq : t' = t
    · exact Or.inr heq
    · exact Or.inl (Function.update_of_ne heq _ _)
  refine h.closure w rfl hinv rfl ⟨rfl, rfl, rfl, rfl⟩ rfl ⟨r, hr, hrest⟩
    (hheld.2.mono hheld.1) ?_ ?_ ?_ ?_ ?_ h.once
  · exact fun g hg => Or.inl (hst ▸ List.mem_cons_of_mem _ hg)
  · intro t' ht'
    rcases List.mem_filterMap.mp ht' with ⟨g, hg, hgt⟩
    exact hok.starts_eq (by rw [hctl]; rfl) (hst ▸ List.mem_cons_of_mem _ hg) hgt
  · intro t' ht'
    have hready := hok.queued t' ht'
    refine ⟨?_, hready.2⟩
    have hfunc : ((s.leave t).task t').func = (s.task t').func := by
      rcases htask t' with hsame | rfl
      · rw [hsame]
      · change (Function.update s.task t' _ t').func = _
        rw [Function.update_self]
    exact hfunc.trans hready.1
  · intro t'
    rcases htask t' with hsame | rfl
    · exact Or.inl ⟨hsame, rfl⟩
    · refine Or.inr (List.mem_append_right _ ?_)
      exact List.mem_filterMap.mpr ⟨_, hst ▸ List.mem_cons_self, rfl⟩
  · intro t' hl hla
    rcases htask t' with hsame | rfl
    · change ((s.leave t).task t').live = true at hl
      change ((s.leave t).task t').latch = true at hla
      rw [hsame] at hl hla
      have hdone := h.latched t' hl hla
      rw [Done] at hdone ⊢
      change l.starts t' = 1 ∧ ∃ v, ((s.leave t).task t').result = some v ∧ _
      rw [hsame]
      exact hdone
    · change (Function.update s.task t' _ t').live = true at hl
      rw [Function.update_self] at hl
      cases hl

theorem faithful_ret (h : Faithful w₀ out s l) (w : W) (v : V)
    (hctl : (s.worker w).ctl = .ret v) :
    Faithful w₀ out (ret s w v (s.worker w).stack) l := by
  have hok := h.ok w
  have hinv := inv_ret h.inv w v
  have hclosure : (s.worker w).ctl.closure = true := by
    rw [hctl]
    rfl
  have hfresh := fresh_of_closure hclosure
  have hfits := hok.fits
  have hheld := hok.held
  -- The value is for the frame on top.
  cases hst : (s.worker w).stack with
  | nil => exact h
  | cons f st =>
  simp only [Worker.Fits, hctl, hst] at hfits
  rw [hst] at hinv hheld
  cases f with
  | call t k =>
      obtain ⟨ra, hr, hres⟩ := hfits
      cases hr
      exact h.replace w hst hinv hfresh hres (by nofun) rfl rfl (List.Subset.refl _) hheld.1
        (by nofun) (by nofun)
  | inline t ra k => exact faithful_inlined h w hctl hst
  | exec t =>
      obtain ⟨⟨v', hv, heval⟩, hloop, hrest⟩ := hfits
      cases hv
      exact h.replace w hst hinv hfresh ⟨heval, hloop, hrest⟩ (by nofun) rfl rfl
        (List.Subset.refl _) hheld.1 (fun t ht => ht) (by nofun)
  | catchUnwind k =>
      obtain ⟨r, hk, hrest⟩ := hfits
      exact h.goes w hinv hclosure rfl ⟨r, hk, hrest⟩ hheld fun g hg =>
        Or.inl (hst ▸ List.mem_cons_of_mem _ hg)
  | run hs | init hs =>
      obtain ⟨hr, hw, hnot⟩ := hfits
      exact h.replace w hst hinv hfresh ⟨hr, hw, hnot⟩ (by nofun) rfl rfl
        (List.Subset.refl _) hheld.1 (by nofun) (by nofun)
  | _ => exact h

omit [DecidableEq A] in
/-- A thread's function returns, or its panic ends it. -/
theorem Faithful.ends (h : Faithful w₀ out s l) (w : W) {c : Control V} {f : Frame W A V}
    {st : List (Frame W A V)} (hst : (s.worker w).stack = f :: st)
    (hinv : Inv (s.go w [] c)) (hf : ∀ k, f ≠ .catchUnwind k) (hkeeps : f.keeps l.entry = [])
    (hfits : Worker.Fits w₀ out l.fst l.snd w
      { s.worker w with stack := [], ctl := c }) :
    Faithful w₀ out (s.go w [] c) l := by
  have hok := h.ok w
  have hheld := hok.held
  rw [hst, held_cons hf, hkeeps] at hheld
  -- The last frame of a thread holds what is in its deque, and that is nothing.
  have hd : (s.worker w).deque = [] := List.prefix_nil.mp hheld.1
  have hnew : Worker.fresh ({ s.worker w with stack := [], ctl := c } : Worker W A V) = none := by
    unfold Worker.fresh
    split
    all_goals simp_all
  refine h.update hinv w _ rfl ⟨hfits, hd, ?_, hok.queued, ?_, ?_, ?_, ?_⟩ ?_ ?_ ?_ h.latched
    h.once rfl
  · exact fun f hf => absurd hf List.not_mem_nil
  · intro t ht
    rw [hnew] at ht
    cases ht
  · intro t ht
    rw [begun_eq hnew] at ht
    exact absurd ht List.not_mem_nil
  · exact fun t st h => absurd h (by nofun)
  · exact fun t ra k st h => absurd h (by nofun)
  · exact fun t => Or.inl ⟨rfl, rfl⟩
  · exact fun t => Or.inl ⟨rfl, rfl⟩
  · exact fun t => Or.inl ⟨rfl, rfl⟩

omit [DecidableEq W] [DecidableEq A] in
theorem Faithful.congr (h : Faithful w₀ out s l) (ht : s'.task = s.task)
    (hw : s'.worker = s.worker) (hrun : s'.aborted = s.aborted) : Faithful w₀ out s' l := by
  obtain ⟨hinv, hok, hlatched, honce, hrunning⟩ := h
  refine ⟨hinv.congr ht hw, ?_, ?_, honce, hrun.trans hrunning⟩
  · intro w
    rw [hw]
    refine (hok w).frame ?_ ?_ ?_
    · exact fun t _ => ⟨rfl, rfl⟩
    · exact fun t _ => ⟨rfl, rfl⟩
    · exact fun t _ => ⟨by rw [ht], rfl⟩
  · intro t hl hla
    rw [ht] at hl hla
    rw [Done, ht]
    exact hlatched t hl hla

omit [DecidableEq W] [DecidableEq A] in
/-- A panic has only `catch_unwind`s and the root below it. -/
theorem Faithful.owns_of_unwind (h : Faithful w₀ out s l) (w : W)
    (hctl : (s.worker w).ctl = .unwind) {f : Frame W A V} {st : List (Frame W A V)}
    (hst : (s.worker w).stack = f :: st) : f.owns = none ∧ f.executes = none := by
  have hfits := (h.ok w).fits
  simp only [Worker.Fits, hctl, hst] at hfits
  cases f with
  | call t k =>
      obtain ⟨ra, hr, -⟩ := hfits
      cases hr
  | inline t ra k =>
      obtain ⟨hsnd, -, rb, -, hrb, -⟩ := hfits
      rw [hsnd] at hrb
      cases hrb
  | exec t =>
      obtain ⟨⟨v, hv, -⟩, -⟩ := hfits
      cases hv
  | catchUnwind k | run hs | init hs => exact ⟨rfl, rfl⟩
  | _ => exact hfits.elim

theorem faithful_unwind (h : Faithful w₀ out s l) (w : W) (hctl : (s.worker w).ctl = .unwind) :
    Faithful w₀ out (unwind s w (s.worker w).stack) l := by
  have hok := h.ok w
  have hclosure : (s.worker w).ctl.closure = true := by
    rw [hctl]
    rfl
  have hfresh := fresh_of_closure hclosure
  have hinv : Inv (unwind s w (s.worker w).stack) := by
    refine inv_unwind h.inv w fun f st hst t ht => ?_
    rw [(h.owns_of_unwind w hctl hst).1] at ht
    cases ht
  have hfits := hok.fits
  have hheld := hok.held
  cases hst : (s.worker w).stack with
  | nil => exact h
  | cons f st =>
  -- A program that evaluates unwinds through no call and no execution.
  have hnone := h.owns_of_unwind w hctl hst
  simp only [Worker.Fits, hctl, hst] at hfits
  rw [hst] at hinv hheld
  cases f with
  | catchUnwind k =>
      obtain ⟨r, hk, hrest⟩ := hfits
      exact h.goes w hinv hclosure rfl ⟨r, hk, hrest⟩ hheld fun g hg =>
        Or.inl (hst ▸ List.mem_cons_of_mem _ hg)
  | run hs => exact h.ends w hst hinv (by nofun) rfl ⟨hfits.2.1, rfl⟩
  | init hs =>
      obtain ⟨hr, hw, hnot⟩ := hfits
      exact h.replace w hst hinv hfresh ⟨hr, hw, hnot⟩ (by nofun) rfl rfl
        (List.Subset.refl _) hheld.1 (by nofun) (by nofun)
  | call t k | inline t ra k | pop t ra k | take t ra k | pushBack t ra k x => cases hnone.1
  | exec t | publish t v | setLatch t => cases hnone.2
  | seek loop r => exact hfits.elim
  | finish hs o | join hs o => exact hfits.elim

/-- A pop after `a` gets the call's own task, or finds the queue empty. -/
theorem faithful_pop (h : Faithful w₀ out s l) (w : W) (hctl : (s.worker w).ctl = .step)
    {t : A} {ra : V} {k : V → V → Prog V} {st : List (Frame W A V)}
    (hst : (s.worker w).stack = .pop t ra k :: st) :
    Faithful w₀ out (advance s w (.pop t ra k :: st)) l := by
  have hok := h.ok w
  have hinv := inv_pop h.inv w hst
  have hfits := hok.fits
  simp only [Worker.Fits, hctl, hst] at hfits
  have hheld := hok.held
  rw [hst, held_cons (by simp)] at hheld
  have hfresh : (s.worker w).fresh = none := by
    unfold Worker.fresh
    rw [hctl, hst]
  unfold advance at hinv ⊢
  simp only at hinv ⊢
  -- An empty queue means that the call's own task was stolen.
  cases hd : (s.worker w).deque with
  | nil =>
      simp only [hd] at hinv ⊢
      exact h.replace w hst hinv hfresh hfits (by simp) rfl rfl
        (List.subset_cons_self _ _) (hd ▸ List.nil_prefix) (by rintro _ ⟨⟩) (by simp)
  | cons x d =>
      rw [hd] at hheld
      obtain ⟨rfl, hd'⟩ := List.cons_prefix_cons.mp hheld.1
      simp only [hd, if_true] at hinv ⊢
      have howns : (s.worker w).owns = x :: st.filterMap Frame.owns := by
        simp only [Worker.owns, hst, List.filterMap_cons, Frame.owns]
      have hnew : x ∉ st.filterMap Frame.owns := by
        have hnd := (h.inv.ok w).owns_nodup
        rw [howns, List.nodup_cons] at hnd
        exact hnd.1
      have hentry : Held l.entry (l.entry x) st := hheld.2
      refine h.update hinv w { deque := d, stack := .inline x ra k :: st, ctl := .step } ?_
        ⟨hfits, ?_, ?_, ?_, ?_, ?_, by simp, by simp⟩ ?_ ?_ ?_ h.latched h.once rfl
      · simp [State.go, State.setDeque]
      · exact (held_cons (by simp)).mpr ⟨hd', hentry⟩
      · -- The popped task is not among what a call found queued.
        have hkept : ∀ f ∈ (Frame.inline x ra k :: st : List (Frame W A V)), ∀ t,
            f.owns = some t → ∀ y ∈ f.keeps l.entry,
            y ≠ x ∧ (y ∈ (s.worker w).deque ↔ y ∉ l.robbed t) := by
          intro f hf t ht y hy
          rcases List.mem_cons.mp hf with rfl | hmem
          · refine ⟨fun heq => hnew (heq ▸ hentry.subset hy), ?_⟩
            exact hok.robbed (.pop x ra k) (hst ▸ List.mem_cons_self) t ht y
              (List.mem_cons_of_mem _ hy)
          · refine ⟨fun heq => hnew (heq ▸ hentry.keeps_subset f hmem hy), ?_⟩
            exact hok.robbed f (hst ▸ List.mem_cons_of_mem _ hmem) t ht y hy
        intro f hf t ht y hy
        obtain ⟨hne, hiff⟩ := hkept f hf t ht y hy
        rw [hd, List.mem_cons] at hiff
        simpa [hne] using hiff
      · exact fun t ht => hok.queued t (hd ▸ List.mem_cons_of_mem _ ht)
      · intro t ht
        cases ht
        exact hok.queued x (hd ▸ List.mem_cons_self)
      · intro t ht
        refine hok.begun t ?_
        rw [begun_eq hfresh, hst]
        exact ht
      · exact fun t => Or.inl ⟨rfl, rfl⟩
      · exact fun t => Or.inl ⟨rfl, rfl⟩
      · exact fun t => Or.inl ⟨rfl, rfl⟩

omit [DecidableEq W] [DecidableEq A] in
/-- The task a frame is at work on is not queued. -/
theorem Inv.not_queued (h : Inv s) {w w' : W} {f : Frame W A V} {t : A}
    (hf : f ∈ (s.worker w).stack) (ht : f.uses = some t) : t ∉ (s.worker w').deque := by
  intro hd
  have hmem : t ∈ (s.worker w).uses :=
    List.mem_append_right _ (List.mem_filterMap.mpr ⟨f, hf, ht⟩)
  have hww := h.uses_unique (List.mem_append_left _ hd) hmem
  subst hww
  rcases Frame.uses_cases ht with hx | ⟨hc, -⟩
  · have hnd := (h.ok w').refs_nodup
    rw [Worker.refs, List.nodup_append] at hnd
    exact hnd.2.2 t hd t (List.mem_filterMap.mpr ⟨f, hf, hx⟩) rfl
  · exact h.consumed w' f t hf hc w' (List.mem_append_left _ hd)

omit [DecidableEq W] [DecidableEq A] in
theorem Worker.mem_uses {wk : Worker W A V} {f : Frame W A V} {t : A}
    (hf : f ∈ wk.stack) (ht : f.uses = some t) : t ∈ wk.uses :=
  List.mem_append_right _ (List.mem_filterMap.mpr ⟨f, hf, ht⟩)

/-- The closure of the task is taken, once. -/
theorem Faithful.begin (h : Faithful w₀ out s l) (w : W) {f : Frame W A V}
    {st : List (Frame W A V)} (hst : (s.worker w).stack = f :: st) {t : A}
    (hfresh : (s.worker w).fresh = some t) (huse : f.uses = some t)
    (hfits : Worker.Fits w₀ out l.fst l.snd w
      { s.worker w with stack := f :: st, ctl := .run (l.snd t) })
    (hinv : Inv ((s.modify t fun x => { x with func := none }).go w (f :: st)
      (.run (l.snd t)))) :
    Faithful w₀ out
      ((s.modify t fun x => { x with func := none }).go w (f :: st) (.run (l.snd t)))
      { l with starts := Function.update l.starts t (l.starts t + 1) } := by
  have hok := h.ok w
  -- A task that is about to begin has its closure, and was never begun.
  have hready := hok.fresh t hfresh
  have hf : f ∈ (s.worker w).stack := hst ▸ List.mem_cons_self
  have hother : ∀ t', t' ≠ t →
      ((s.modify t fun x => { x with func := none }).go w (f :: st) (.run (l.snd t))).task t' =
          s.task t' ∧
        Function.update l.starts t (l.starts t + 1) t' = l.starts t' := fun t' hne =>
    ⟨Function.update_of_ne hne _ _, Function.update_of_ne hne _ _⟩
  have hself : Function.update l.starts t (l.starts t + 1) t = 1 := by
    rw [Function.update_self, hready.2]
  refine h.closure w rfl hinv rfl ⟨rfl, rfl, rfl, rfl⟩ rfl hfits (hst ▸ hok.held) ?_ ?_ ?_ ?_ ?_ ?_
  · exact fun g hg => Or.inl (hst ▸ hg)
  · intro t' ht'
    by_cases heq : t' = t
    · rw [heq]
      exact hself
    · -- The other frames were begun before.
      refine (hother t' heq).2.trans (hok.begun t' ?_)
      unfold Worker.begun
      rw [hfresh, hst]
      rcases List.mem_filterMap.mp ht' with ⟨g, hg, hgt⟩
      rcases List.mem_cons.mp hg with rfl | hmem
      · rw [Frame.uses_of_begun hgt] at huse
        exact absurd (Option.some.inj huse) heq
      · exact List.mem_filterMap.mpr ⟨g, hmem, hgt⟩
  · intro t' ht'
    have hne : t' ≠ t := fun heq => h.inv.not_queued hf huse (heq ▸ ht')
    rcases hok.queued t' ht' with ⟨hfunc, hstarts⟩
    exact ⟨by rw [← hfunc]; exact congrArg StackTask.func (hother t' hne).1,
      (hother t' hne).2.trans hstarts⟩
  · intro t'
    by_cases heq : t' = t
    · exact Or.inr (heq ▸ Worker.mem_uses hf huse)
    · exact Or.inl (hother t' heq)
  · intro t' hl hla
    by_cases heq : t' = t
    · -- A task that is done was begun before.
      subst heq
      change (Function.update s.task t' _ t').live = true at hl
      change (Function.update s.task t' _ t').latch = true at hla
      rw [Function.update_self] at hl hla
      have hdone := h.latched t' hl hla
      rw [Done, hready.2] at hdone
      exact absurd hdone.1 Nat.zero_ne_one
    · rw [(hother t' heq).1] at hl hla
      rcases h.latched t' hl hla with ⟨hstarts, v, hres, hsnd⟩
      exact ⟨(hother t' heq).2.trans hstarts, v,
        by rw [← hres]; exact congrArg StackTask.result (hother t' heq).1, hsnd⟩
  · intro t'
    by_cases heq : t' = t
    · rw [heq]
      exact Nat.le_of_eq hself
    · exact (hother t' heq).2.trans_le (h.once t')

/-- `execute_trampoline` writes the result. -/
theorem faithful_publish (h : Faithful w₀ out s l) (w : W) (hctl : (s.worker w).ctl = .step)
    {t : A} {r : V} {st : List (Frame W A V)} (hst : (s.worker w).stack = .publish t r :: st) :
    Faithful w₀ out (advance s w (.publish t r :: st)) l := by
  have hok := h.ok w
  have hinv := inv_advance h.inv w
  rw [hst] at hinv
  have hfits := hok.fits
  simp only [Worker.Fits, hctl, hst] at hfits
  obtain ⟨hsnd, hloop, hrest⟩ := hfits
  have hheld := hok.held
  rw [hst, held_cons (by nofun)] at hheld
  have hf : Frame.publish t r ∈ (s.worker w).stack := hst ▸ List.mem_cons_self
  have hfresh : (s.worker w).fresh = none := by
    unfold Worker.fresh
    rw [hctl, hst]
  -- The frame's task has been begun, and no frame begins another one.
  have hbegun : ∀ t' ∈ (Frame.setLatch t :: st : List (Frame W A V)).filterMap Frame.begun,
      l.starts t' = 1 := by
    intro t' ht'
    refine hok.begun t' ?_
    rw [begun_eq hfresh, hst]
    exact ht'
  have hstarts : l.starts t = 1 := hbegun t List.mem_cons_self
  have hother : ∀ t', t' ≠ t →
      (advance s w (.publish t r :: st)).task t' = s.task t' := fun t' hne =>
    Function.update_of_ne hne _ _
  -- What is written is what `b` evaluates to.
  have hdone : Done (advance s w (.publish t r :: st)) l t := by
    refine ⟨hstarts, r, ?_, hsnd⟩
    change (Function.update s.task t _ t).result = _
    rw [Function.update_self]
  refine h.update hinv w
    { s.worker w with stack := .setLatch t :: st, ctl := .step } rfl
    ⟨⟨⟨r, hsnd⟩, hloop, hrest⟩, (held_cons (by nofun)).mpr hheld, ?_, ?_, by nofun, hbegun, ?_,
      by nofun⟩ ?_ ?_ ?_ ?_ h.once rfl
  · intro g hg t' ht' y hy
    rcases List.mem_cons.mp hg with rfl | hmem
    · cases ht'
    · exact hok.robbed g (hst ▸ List.mem_cons_of_mem _ hmem) t' ht' y hy
  · intro t' ht'
    have hne : t' ≠ t := fun heq => h.inv.not_queued hf rfl (heq ▸ ht')
    rcases hok.queued t' ht' with ⟨hfunc, hs⟩
    exact ⟨by rw [← hfunc]; exact congrArg StackTask.func (hother t' hne), hs⟩
  · intro t' st' hst'
    rw [List.cons.injEq] at hst'
    cases hst'.1
    exact hdone
  · exact fun t => Or.inl ⟨rfl, rfl⟩
  · exact fun t => Or.inl ⟨rfl, rfl⟩
  · intro t'
    by_cases heq : t' = t
    · refine Or.inr fun w' hw' ht => hw' (h.inv.uses_unique ht ?_)
      exact heq ▸ Worker.mem_uses hf rfl
    · exact Or.inl ⟨hother t' heq, rfl⟩
  · intro t' hl hla
    by_cases heq : t' = t
    · rw [heq]
      exact hdone
    · rw [hother t' heq] at hl hla
      rcases h.latched t' hl hla with ⟨hs, v, hres, hv⟩
      exact ⟨hs, v, by rw [← hres]; exact congrArg StackTask.result (hother t' heq), hv⟩

/-- `execute_trampoline` sets the latch. -/
theorem faithful_setLatch (h : Faithful w₀ out s l) (w : W) (hctl : (s.worker w).ctl = .step)
    {t : A} {st : List (Frame W A V)} (hst : (s.worker w).stack = .setLatch t :: st) :
    Faithful w₀ out (advance s w (.setLatch t :: st)) l := by
  have hok := h.ok w
  have hinv := inv_setLatch h.inv w hst
  have hfits := hok.fits
  simp only [Worker.Fits, hctl, hst] at hfits
  obtain ⟨-, hloop, hrest⟩ := hfits
  have hheld := hok.held
  rw [hst, held_cons (by nofun)] at hheld
  have hd : (s.worker w).deque = [] := List.prefix_nil.mp hheld.1
  have hf : Frame.setLatch t ∈ (s.worker w).stack := hst ▸ List.mem_cons_self
  have hfresh : (s.worker w).fresh = none := by
    unfold Worker.fresh
    rw [hctl, hst]
  have hother : ∀ t', t' ≠ t →
      (advance s w (.setLatch t :: st)).task t' = s.task t' := fun t' hne =>
    Function.update_of_ne hne _ _
  -- Below is the loop that found the task.
  obtain ⟨loop, st', rfl⟩ : ∃ loop st', st = .seek loop .check :: st' := by
    unfold Loops at hloop
    split at hloop
    · exact ⟨_, _, rfl⟩
    · exact hloop.elim
  refine h.update hinv w
    { s.worker w with stack := .seek loop .check :: st', ctl := .step } rfl
    ⟨hrest, hd ▸ hheld.2, ?_, ?_, by nofun, ?_, by nofun, by nofun⟩ ?_ ?_ ?_ ?_ h.once rfl
  · exact fun g hg => hok.robbed g (hst ▸ List.mem_cons_of_mem _ hg)
  · intro t' ht'
    rw [hd] at ht'
    exact absurd ht' List.not_mem_nil
  · intro t' ht'
    refine hok.begun t' ?_
    rw [begun_eq hfresh, hst]
    exact List.mem_cons_of_mem _ ht'
  · exact fun t => Or.inl ⟨rfl, rfl⟩
  · exact fun t => Or.inl ⟨rfl, rfl⟩
  · intro t'
    by_cases heq : t' = t
    · refine Or.inr fun w' hw' ht => hw' (h.inv.uses_unique ht ?_)
      exact heq ▸ Worker.mem_uses hf rfl
    · exact Or.inl ⟨hother t' heq, rfl⟩
  · intro t' hl hla
    by_cases heq : t' = t
    · subst heq
      rcases hok.done t' _ hst with ⟨hs, v, hres, hv⟩
      refine ⟨hs, v, ?_, hv⟩
      change (Function.update s.task t' _ t').result = _
      rw [Function.update_self]
      exact hres
    · rw [hother t' heq] at hl hla
      rcases h.latched t' hl hla with ⟨hs, v, hres, hv⟩
      exact ⟨hs, v, by rw [← hres]; exact congrArg StackTask.result (hother t' heq), hv⟩

omit [DecidableEq W] [DecidableEq A] in
/-- A call that has seen its latch finds the second branch's value. -/
theorem Faithful.taken (h : Faithful w₀ out s l) {w : W} (hctl : (s.worker w).ctl = .step)
    {t : A} {ra : V} {k : V → V → Prog V} {st : List (Frame W A V)}
    (hst : (s.worker w).stack = .take t ra k :: st) :
    l.starts t = 1 ∧ ∃ rb, (s.task t).result = some rb ∧
      Resumes l.fst l.snd t ra k (fun r => Fits w₀ out l.fst l.snd w (some r) st) ∧
      (l.snd t).eval = some (some rb) := by
  have hf : Frame.take t ra k ∈ (s.worker w).stack := hst ▸ List.mem_cons_self
  have hlive := h.inv.owns_live w t (List.mem_filterMap.mpr ⟨_, hf, rfl⟩)
  obtain ⟨hstarts, rb, hres, hsnd⟩ := h.latched t hlive ((h.ok w).seen t ra k st hst)
  have hfits := (h.ok w).fits
  simp only [Worker.Fits, hctl, hst] at hfits
  exact ⟨hstarts, rb, hres, hfits, hsnd⟩

/-- `take_result`, and the call's frame is left. -/
theorem faithful_take (h : Faithful w₀ out s l) (w : W) (hctl : (s.worker w).ctl = .step)
    {t : A} {ra : V} {k : V → V → Prog V} {st : List (Frame W A V)}
    (hst : (s.worker w).stack = .take t ra k :: st) :
    Faithful w₀ out (advance s w (.take t ra k :: st)) l := by
  have hok := h.ok w
  have hinv := inv_advance h.inv w
  rw [hst] at hinv
  have hf : Frame.take t ra k ∈ (s.worker w).stack := hst ▸ List.mem_cons_self
  obtain ⟨-, rb, hres, ⟨-, rb', r, hsnd', hr, hrest⟩, hsnd⟩ := h.taken hctl hst
  -- The result that is taken is the one that the history expects.
  have hrb : rb = rb' := by
    rw [hsnd] at hsnd'
    simpa using hsnd'
  subst hrb
  have hadv : advance s w (.take t ra k :: st) =
      ((s.modify t fun x => { x with result := none }).leave t).go w st (.run (k ra rb)) := by
    simp only [advance, hres]
  rw [hadv] at hinv ⊢
  have hheld := hok.held
  rw [hst, held_cons (by simp)] at hheld
  have hfresh : (s.worker w).fresh = none := by
    unfold Worker.fresh
    rw [hctl, hst]
  have hother : ∀ t', t' ≠ t →
      (((s.modify t fun x => { x with result := none }).leave t).go w st
        (.run (k ra rb))).task t' = s.task t' := by
    intro t' hne
    change Function.update (Function.update s.task t _) t _ t' = _
    rw [Function.update_of_ne hne, Function.update_of_ne hne]
  refine h.closure w rfl hinv rfl ⟨rfl, rfl, rfl, rfl⟩ rfl ⟨r, hr, hrest⟩
    (hheld.2.mono hheld.1) ?_ ?_ ?_ ?_ ?_ h.once
  · exact fun g hg => Or.inl (hst ▸ List.mem_cons_of_mem _ hg)
  · intro t' ht'
    refine hok.begun t' ?_
    rw [begun_eq hfresh, hst]
    exact ht'
  · intro t' ht'
    have hne : t' ≠ t := fun heq => h.inv.not_queued hf rfl (heq ▸ ht')
    rcases hok.queued t' ht' with ⟨hfunc, hs⟩
    exact ⟨by rw [← hfunc]; exact congrArg StackTask.func (hother t' hne), hs⟩
  · intro t'
    by_cases heq : t' = t
    · exact Or.inr (heq ▸ Worker.mem_uses hf rfl)
    · exact Or.inl ⟨hother t' heq, rfl⟩
  · intro t' hl hla
    by_cases heq : t' = t
    · subst heq
      simp [State.go, State.leave, State.modify] at hl
    · rw [hother t' heq] at hl hla
      rcases h.latched t' hl hla with ⟨hs, v, hres', hv⟩
      exact ⟨hs, v, by rw [← hres']; exact congrArg StackTask.result (hother t' heq), hv⟩

/-- A round of a loop that looks for work. -/
theorem faithful_seek (h : Faithful w₀ out s l) (w : W) (hctl : (s.worker w).ctl = .step)
    {loop : Loop W A V} {r : Seek} {st : List (Frame W A V)}
    (hst : (s.worker w).stack = .seek loop r :: st) :
    Faithful w₀ out (advance s w (.seek loop r :: st)) l := by
  have hok := h.ok w
  have hinv := inv_seek h.inv w hst
  have hd := (h.inv.ok w).deque_nil hst
  have hfits := hok.fits
  simp only [Worker.Fits, hctl, hst] at hfits
  have hfresh : (s.worker w).fresh = none := by
    unfold Worker.fresh
    rw [hctl, hst]
  -- One more stage of the same loop.
  have turn : ∀ r', Inv (s.go w (.seek loop r' :: st) .step) →
      Faithful w₀ out (s.go w (.seek loop r' :: st) .step) l := by
    intro r' hinv'
    have hfits' : Fits w₀ out l.fst l.snd w none (.seek loop r' :: st) := by
      cases loop with
      | _ => exact hfits
    refine h.replace w hst hinv' hfresh hfits' (by simp) rfl ?_ ?_ (hd ▸ List.nil_prefix)
      (by rintro _ ⟨⟩) (by simp)
    · cases loop with
      | _ => rfl
    · cases loop with
      | _ => exact List.Subset.refl _
  cases r with
  | check =>
      cases loop with
      | idle =>
          simp only [advance] at hinv ⊢
          split at hinv
          · rename_i hfin
            rw [if_pos hfin]
            exact h.replace w hst hinv hfresh hfits (by simp) rfl rfl (List.Subset.refl _)
              (hd ▸ List.nil_prefix) (by rintro _ ⟨⟩) (by simp)
          · rename_i hfin
            rw [if_neg hfin]
            exact turn _ hinv
      | help t ra k =>
          simp only [advance] at hinv ⊢
          split at hinv
          · rename_i hla
            rw [if_pos hla]
            refine h.replace w hst hinv hfresh hfits (by simp) rfl rfl (List.Subset.refl _)
              (hd ▸ List.nil_prefix) (by rintro _ ⟨⟩) ?_
            intro t' ra' k' heq
            cases heq
            exact hla
          · rename_i hla
            rw [if_neg hla]
            exact turn _ hinv
      | drain | initDrain => exact turn _ hinv
  | pop =>
      simp only [advance, hd] at hinv ⊢
      exact turn _ hinv
  | steal =>
      cases loop with
      | idle | help => exact turn _ hinv
      | drain => exact h.ends w hst hinv (by simp) rfl rfl
      | initDrain hs o =>
          exact h.replace w hst hinv hfresh hfits (by simp) rfl rfl (List.Subset.refl _)
            (hd ▸ List.nil_prefix) (by rintro _ ⟨⟩) (by simp)

/-- No thread that `shutdown` joins was lost to a panic. -/
theorem faithful_join (h : Faithful w₀ out s l) (w : W) (hctl : (s.worker w).ctl = .step)
    {hs : List W} {o : Option V} {st : List (Frame W A V)}
    (hst : (s.worker w).stack = .join hs o :: st) :
    Faithful w₀ out (advance s w (.join hs o :: st)) l := by
  have hinv := inv_advance h.inv w
  rw [hst] at hinv
  have hfits := (h.ok w).fits
  simp only [Worker.Fits, hctl, hst] at hfits
  obtain ⟨ho, hw, hnot⟩ := hfits
  have hheld := (h.ok w).held
  rw [hst, held_cons (by simp)] at hheld
  have hfresh : (s.worker w).fresh = none := by
    unfold Worker.fresh
    rw [hctl, hst]
  cases hs with
  | nil =>
      refine h.ends w hst hinv (by simp) rfl ?_
      cases o with
      | some v => rfl
      | none => exact ⟨hw, rfl⟩
  | cons b hs =>
      rw [List.mem_cons, not_or] at hnot
      simp only [advance] at hinv ⊢
      split at hinv
      · -- Only the root worker's thread can be lost.
        rename_i hdead
        have hb := (h.ok b).fits
        simp only [Worker.Fits, hdead] at hb
        exact absurd hb.1.symm hnot.1
      · exact h.replace w hst hinv hfresh ⟨ho, hw, hnot.2⟩ (by simp) rfl rfl
          (List.Subset.refl _) hheld.1 (by rintro _ ⟨⟩) (by simp)

theorem faithful_advance (h : Faithful w₀ out s l) (w : W) (hctl : (s.worker w).ctl = .step) :
    Faithful w₀ out (advance s w (s.worker w).stack) (l.add s (.step w)) := by
  have hok := h.ok w
  have hinv := inv_advance h.inv w
  have hfits := hok.fits
  have hheld := hok.held
  have hadd : (s.worker w).fresh = none → l.add s (.step w) = l := by
    intro hfresh
    simp only [Log.add, hfresh]
  -- The frame on top is what the worker goes on with.
  cases hst : (s.worker w).stack with
  | nil =>
      rw [hadd (by simp only [Worker.fresh, hctl, hst])]
      exact h
  | cons f st =>
  simp only [Worker.Fits, hctl, hst] at hfits
  rw [hst] at hinv hheld
  cases f with
  | inline t ra k =>
      have hfresh : (s.worker w).fresh = some t := by simp only [Worker.fresh, hctl, hst]
      have hready := (hok.fresh t hfresh).1
      simp only [advance, hready, Log.add, hfresh, Option.isSome_some, if_true] at hinv ⊢
      refine h.begin w hst hfresh rfl ?_ hinv
      obtain ⟨hfst, rb, r, hsnd, hr, hrest⟩ := hfits
      exact ⟨some rb, hsnd, hsnd, hfst, rb, r, hsnd, hr, hrest⟩
  | exec t =>
      have hfresh : (s.worker w).fresh = some t := by simp only [Worker.fresh, hctl, hst]
      have hready := (hok.fresh t hfresh).1
      simp only [advance, hready, Log.add, hfresh, Option.isSome_some, if_true] at hinv ⊢
      refine h.begin w hst hfresh rfl ?_ hinv
      obtain ⟨⟨v, hsnd⟩, hloop, hrest⟩ := hfits
      exact ⟨some v, hsnd, ⟨v, rfl, hsnd⟩, hloop, hrest⟩
  | pop t ra k =>
      rw [hadd (by simp only [Worker.fresh, hctl, hst])]
      exact faithful_pop h w hctl hst
  | take t ra k =>
      rw [hadd (by simp only [Worker.fresh, hctl, hst])]
      exact faithful_take h w hctl hst
  | publish t r =>
      rw [hadd (by simp only [Worker.fresh, hctl, hst])]
      exact faithful_publish h w hctl hst
  | setLatch t =>
      rw [hadd (by simp only [Worker.fresh, hctl, hst])]
      exact faithful_setLatch h w hctl hst
  | seek loop r =>
      rw [hadd (by simp only [Worker.fresh, hctl, hst])]
      exact faithful_seek h w hctl hst
  | join hs o =>
      rw [hadd (by simp only [Worker.fresh, hctl, hst])]
      exact faithful_join h w hctl hst
  | finish hs o =>
      rw [hadd (by simp only [Worker.fresh, hctl, hst])]
      have hfresh : (s.worker w).fresh = none := by simp only [Worker.fresh, hctl, hst]
      have hgo : Faithful w₀ out (s.go w (.join hs o :: st) .step) l :=
        h.replace w hst (hinv.congr rfl rfl) hfresh hfits (by simp) rfl rfl
          (List.Subset.refl _) hheld.1 (by rintro _ ⟨⟩) (by simp)
      exact hgo.congr rfl rfl rfl
  | _ => exact hfits.elim

omit [DecidableEq W] [DecidableEq A] in
/-- Nobody mentions a task that is not there. -/
theorem Inv.unmentioned (h : Inv s) {t : A} (ht : (s.task t).live = false) (w : W) :
    t ∉ (s.worker w).mentions ∧ t ∉ (s.worker w).owns ∧ t ∉ (s.worker w).uses := by
  -- Whatever is mentioned is live.
  have hrefs : t ∉ (s.worker w).refs := by
    intro hmem
    have hlive := h.safe w t hmem
    rw [ht] at hlive
    cases hlive
  have howns : t ∉ (s.worker w).owns := by
    intro hmem
    have hlive := h.owns_live w t hmem
    rw [ht] at hlive
    cases hlive
  refine ⟨?_, howns, ?_⟩
  · intro hmem
    rcases List.mem_flatMap.mp hmem with ⟨f, hf, hft⟩
    rcases List.mem_append.mp hft with ho | hx
    · exact howns (List.mem_filterMap.mpr ⟨f, hf, by simpa using ho⟩)
    · exact hrefs (List.mem_append_right _ (List.mem_filterMap.mpr ⟨f, hf, by simpa using hx⟩))
  · intro hmem
    rcases List.mem_append.mp hmem with hd | hs
    · exact hrefs (List.mem_append_left _ hd)
    · rcases List.mem_filterMap.mp hs with ⟨f, hf, hft⟩
      rcases Frame.uses_cases hft with hx | ⟨-, ho⟩
      · exact hrefs (List.mem_append_right _ (List.mem_filterMap.mpr ⟨f, hf, hx⟩))
      · exact howns (List.mem_filterMap.mpr ⟨f, hf, ho⟩)

omit [DecidableEq W] in
theorem opens_of_ne {t t' : A} (h : t' ≠ t) (l : Log A V) (a b : Prog V) (d : List A) :
    (l.opens t a b d).fst t' = l.fst t' ∧ (l.opens t a b d).snd t' = l.snd t' ∧
      (l.opens t a b d).starts t' = l.starts t' ∧ (l.opens t a b d).entry t' = l.entry t' ∧
      (l.opens t a b d).robbed t' = l.robbed t' :=
  ⟨Function.update_of_ne h _ _, Function.update_of_ne h _ _, Function.update_of_ne h _ _,
    Function.update_of_ne h _ _, Function.update_of_ne h _ _⟩

omit [DecidableEq W] in
@[simp] theorem opens_self (l : Log A V) (t : A) (a b : Prog V) (d : List A) :
    (l.opens t a b d).fst t = a ∧ (l.opens t a b d).snd t = b ∧
      (l.opens t a b d).starts t = 0 ∧ (l.opens t a b d).entry t = d ∧
      (l.opens t a b d).robbed t = [] :=
  ⟨Function.update_self .., Function.update_self .., Function.update_self ..,
    Function.update_self .., Function.update_self ..⟩

omit [DecidableEq W] in
/-- The caller of a new call, where `hold` says that the history of the calls
    below is as it was. -/
theorem Worker.Faithful.opens {wk : Worker W A V} {w : W} {t : A} {a b : Prog V}
    {k : V → V → Prog V}
    (hold : wk.Faithful w₀ out s (l.opens t a b wk.deque) w)
    (hctl : wk.ctl = .run (.parallelCall a b k)) (hown : t ∉ wk.owns)
    (hready : (s.task t).func = some b) :
    Worker.Faithful w₀ out s (l.opens t a b wk.deque) w
      { deque := t :: wk.deque, stack := .call t k :: wk.stack, ctl := .run a } := by
  obtain ⟨hfst, hsnd, hstarts, hentry, hrobbed⟩ := opens_self l t a b wk.deque
  have hfresh : wk.fresh = none := fresh_of_closure (by rw [hctl]; rfl)
  have hfits := hold.fits
  simp only [Worker.Fits, hctl] at hfits
  obtain ⟨r, hr, hrest⟩ := hfits
  constructor
  case fits =>
    -- What `a` and `b` come to is what the rest of the call gets.
    simp only [Prog.eval] at hr
    split at hr
    · rename_i ra rb ha hb
      exact ⟨some ra, ha, ra, rfl, hfst.symm ▸ ha, rb, r, hsnd.symm ▸ hb, hr, hrest⟩
    · cases hr
  case held =>
    refine (held_cons (by simp)).mpr ?_
    simp only [Frame.keeps, Frame.owns, Option.map_some, Option.getD_some, hentry]
    exact ⟨List.prefix_refl _, hold.held⟩
  case robbed =>
    intro f hf t' ht' y hy
    rcases List.mem_cons.mp hf with rfl | hmem
    · cases ht'
      simp only [Frame.keeps, hentry] at hy
      rw [hrobbed]
      simpa using hy
    · have hne : y ≠ t := by
        intro heq
        exact hown (heq ▸ hold.held.keeps_subset f hmem hy)
      have hiff := hold.robbed f hmem t' ht' y hy
      simpa [hne] using hiff
  case queued =>
    intro t' ht'
    rcases List.mem_cons.mp ht' with rfl | hmem
    · exact ⟨by rw [hready, hsnd], hstarts⟩
    · exact hold.queued t' hmem
  case fresh => rintro _ ⟨⟩
  case begun =>
    intro t' ht'
    refine hold.begun t' ?_
    rw [begun_eq hfresh]
    exact ht'
  case done => rintro _ _ ⟨⟩
  case seen => rintro _ _ _ _ ⟨⟩

/-- A `parallel_call` begins: its history begins with it. -/
theorem faithful_call (h : Faithful w₀ out s l) (w : W) (t : A) (hg : canCall s w t = true) :
    Faithful w₀ out (call s w t) (l.add s (.call w t)) := by
  have hinv := inv_call h.inv w t hg
  unfold canCall at hg
  unfold call at hinv ⊢
  unfold Log.add
  split at hg
  case h_2 => cases hg
  rename_i a b k hctl
  simp only [hctl, Bool.not_eq_true'] at hg hinv ⊢
  -- The task is new: no worker, no frame and no entry of the history mentions it.
  have hnone := h.inv.unmentioned hg
  have hother : ∀ t', t' ≠ t → (s.modify t fun _ => .new b).task t' = s.task t' := fun t' hne =>
    Function.update_of_ne hne _ _
  -- Everybody else's history is as it was.
  have hold : (s.worker w).Faithful w₀ out (s.modify t fun _ => .new b)
      (l.opens t a b (s.worker w).deque) w := by
    refine (h.ok w).frame ?_ ?_ ?_
    · intro t' ht'
      have hne : t' ≠ t := fun heq => (hnone w).1 (heq ▸ ht')
      have hsame := opens_of_ne hne l a b (s.worker w).deque
      exact ⟨hsame.1, hsame.2.1⟩
    · intro t' ht'
      have hne : t' ≠ t := fun heq => (hnone w).2.1 (heq ▸ ht')
      exact (opens_of_ne hne l a b (s.worker w).deque).2.2.2
    · intro t' ht'
      have hne : t' ≠ t := fun heq => (hnone w).2.2 (heq ▸ ht')
      exact ⟨hother t' hne, (opens_of_ne hne l a b (s.worker w).deque).2.2.1⟩
  have hnew := hold.opens hctl (hnone w).2.1 (by
    change (Function.update s.task t _ t).func = _
    rw [Function.update_self]
    rfl)
  -- For each of the histories: this task's is opened here, the others are as they were.
  refine h.update hinv w
    { deque := t :: (s.worker w).deque
      stack := .call t k :: (s.worker w).stack
      ctl := .run a } ?_ (hnew.frame ?_ ?_ ?_) ?_ ?_ ?_ ?_ ?_ rfl
  · simp [State.go, State.setDeque, State.modify]
  · exact fun t _ => ⟨rfl, rfl⟩
  · exact fun t _ => ⟨rfl, rfl⟩
  · exact fun t _ => ⟨rfl, rfl⟩
  · intro t'
    by_cases heq : t' = t
    · exact Or.inr fun w' _ => heq ▸ (hnone w').1
    · have hne := opens_of_ne heq l a b (s.worker w).deque
      exact Or.inl ⟨hne.1, hne.2.1⟩
  · intro t'
    by_cases heq : t' = t
    · exact Or.inr fun w' _ => heq ▸ (hnone w').2.1
    · exact Or.inl (opens_of_ne heq l a b (s.worker w).deque).2.2.2
  · intro t'
    by_cases heq : t' = t
    · exact Or.inr fun w' _ => heq ▸ (hnone w').2.2
    · exact Or.inl ⟨hother t' heq, (opens_of_ne heq l a b (s.worker w).deque).2.2.1⟩
  · intro t' hl hla
    change ((s.modify t fun _ => .new b).task t').live = true at hl
    change ((s.modify t fun _ => .new b).task t').latch = true at hla
    by_cases heq : t' = t
    · subst heq
      change (Function.update s.task t' _ t').latch = true at hla
      rw [Function.update_self] at hla
      cases hla
    · rw [hother t' heq] at hl hla
      rcases h.latched t' hl hla with ⟨hs, v, hres, hv⟩
      have hne := opens_of_ne heq l a b (s.worker w).deque
      exact ⟨hne.2.2.1.trans hs, v,
        by rw [← hres]; exact congrArg StackTask.result (hother t' heq), hne.2.1.symm ▸ hv⟩
  · intro t'
    by_cases heq : t' = t
    · rw [heq, (opens_self l t a b (s.worker w).deque).2.2.1]
      exact Nat.zero_le 1
    · rw [(opens_of_ne heq l a b (s.worker w).deque).2.2.1]
      exact h.once t'

omit [DecidableEq W] [DecidableEq A] in
/-- The second branch of a call in progress has a value. -/
theorem fits_pending {fst snd : A → Prog V} {w : W} :
    ∀ {st : List (Frame W A V)} {c : Option (Option V)}, Fits w₀ out fst snd w c st →
      ∀ t ∈ pending st, ∃ v, (snd t).eval = some (some v) := by
  intro st
  -- Down the stack, each frame hands its value to the one below.
  induction st with
  | nil => exact fun _ t ht => absurd ht List.not_mem_nil
  | cons f st ih =>
      intro c h t ht
      cases c with
      | some r =>
          cases f with
          | call t' k =>
              obtain ⟨ra, -, -, rb, r', hsnd, -, hrest⟩ := h
              rcases List.mem_cons.mp ht with rfl | hmem
              · exact ⟨rb, hsnd⟩
              · exact ih hrest t hmem
          | inline t' ra k =>
              obtain ⟨-, -, rb, r', -, -, hrest⟩ := h
              exact ih hrest t ht
          | exec t' => exact ih h.2.2 t ht
          | catchUnwind k =>
              obtain ⟨r', -, hrest⟩ := h
              exact ih hrest t ht
          | run hs | init hs => exact absurd ht List.not_mem_nil
          | _ => exact h.elim
      | none =>
          cases f with
          | pop t' ra k =>
              obtain ⟨-, rb, r', hsnd, -, hrest⟩ := h
              rcases List.mem_cons.mp ht with rfl | hmem
              · exact ⟨rb, hsnd⟩
              · exact ih hrest t hmem
          | inline t' ra k | take t' ra k =>
              obtain ⟨-, rb, r', -, -, hrest⟩ := h
              exact ih hrest t ht
          | exec t' | publish t' v | setLatch t' => exact ih h.2.2 t ht
          | seek loop r | finish hs o | join hs o => exact absurd ht List.not_mem_nil
          | _ => exact h.elim

/-- The victim of a steal: its queue's oldest task is gone. -/
theorem faithful_dropLast (h : Faithful w₀ out s l) (w v : W) {d : List A} {x : A}
    (hd : (s.worker v).deque = d ++ [x]) :
    Faithful w₀ out (s.setDeque v d) (l.add s (.steal w v)) := by
  have hok := h.ok v
  have hnd : (d ++ [x]).Nodup := by
    have hrefs := (h.inv.ok v).refs_nodup
    rw [Worker.refs, hd, List.nodup_append] at hrefs
    exact hrefs.1
  -- The oldest task is in the queue only once.
  have hx : x ∉ d := by
    rw [List.nodup_append] at hnd
    exact fun hmem => hnd.2.2 x hmem x List.mem_cons_self rfl
  have hadd : l.add s (.steal w v) = { l with
      robbed := fun t => if t ∈ (s.worker v).owns then x :: l.robbed t else l.robbed t } := by
    simp only [Log.add, hd, List.getLast?_concat]
  rw [hadd]
  refine h.update (inv_dropLast h.inv v hd).1 v { s.worker v with deque := d } rfl
    ⟨hok.fits, ?_, ?_, ?_, hok.fresh, hok.begun, hok.done, hok.seen⟩ ?_ ?_ ?_ h.latched h.once rfl
  · exact hok.held.mono (hd ▸ List.prefix_append d [x])
  · intro f hf t ht y hy
    have hiff := hok.robbed f hf t ht y hy
    have hmem : t ∈ (s.worker v).owns := List.mem_filterMap.mpr ⟨f, hf, ht⟩
    rw [hd, List.mem_append, List.mem_singleton] at hiff
    simp only [hmem, if_true, List.mem_cons, not_or]
    by_cases hyx : y = x
    · subst hyx
      exact ⟨fun hyd => absurd hyd hx, fun hno => absurd rfl hno.1⟩
    · simpa [hyx] using hiff
  · exact fun t ht => hok.queued t (hd ▸ List.mem_append_left _ ht)
  · exact fun t => Or.inl ⟨rfl, rfl⟩
  · intro t
    by_cases hmem : t ∈ (s.worker v).owns
    · exact Or.inr fun w' hw' ht => hw' (h.inv.owns_unique w' v t ht hmem)
    · exact Or.inl ⟨rfl, if_neg hmem⟩
  · exact fun t => Or.inl ⟨rfl, rfl⟩

/-- A thief takes a closure whose value its pusher counts on. -/
theorem faithful_steal (h : Faithful w₀ out s l) (w v : W) (hg : canSteal s w v = true) :
    Faithful w₀ out (steal s w v) (l.add s (.steal w v)) := by
  have hinv := inv_steal h.inv w v hg
  unfold canSteal at hg
  split at hg
  case h_2 => cases hg
  rename_i loop st hctl hst
  simp only [Bool.and_eq_true, decide_eq_true_eq, Bool.not_eq_true'] at hg
  obtain ⟨hvw, hne⟩ := hg
  -- The victim's queue ends with the task that is stolen.
  have hlast : ∃ d x, (s.worker v).deque = d ++ [x] := by
    rcases List.eq_nil_or_concat (s.worker v).deque with hnil | ⟨d, x, hd⟩
    · rw [hnil] at hne
      cases hne
    · exact ⟨d, x, by simpa using hd⟩
  obtain ⟨d, x, hd⟩ := hlast
  have hdrop := faithful_dropLast h w v hd
  have hready : Ready s l x := (h.ok v).queued x (by rw [hd]; simp)
  -- The victim counts on a value of that task, whatever it does at the moment.
  have heval : ∃ y, (l.snd x).eval = some (some y) := by
    have hfits := (h.ok v).fits
    have hpending : x ∈ pending (s.worker v).stack :=
      (h.inv.ok v).fifo.subset (by rw [hd]; simp)
    unfold Worker.Fits at hfits
    cases hvctl : (s.worker v).ctl with
    | run p =>
        rw [hvctl] at hfits
        obtain ⟨r, -, hrest⟩ := hfits
        exact fits_pending hrest x hpending
    | ret y | unwind | step =>
        rw [hvctl] at hfits
        exact fits_pending hfits x hpending
    | exited =>
        rw [hvctl] at hfits
        change (s.worker v).stack = [] at hfits
        rw [hfits] at hpending
        exact absurd hpending List.not_mem_nil
    | dead =>
        rw [hvctl] at hfits
        rw [hfits.2] at hpending
        exact absurd hpending List.not_mem_nil
  have hsteal : steal s w v =
      (s.setDeque v d).go w (.exec x :: .seek loop .check :: st) .step := by
    simp only [steal, hst, hd, List.getLast?_concat, List.dropLast_concat]
  rw [hsteal] at hinv ⊢
  have hworker : (s.setDeque v d).worker w = s.worker w := by
    simp [State.setDeque, hvw.symm]
  have hsnd : (l.add s (.steal w v)).snd = l.snd ∧ (l.add s (.steal w v)).starts = l.starts := by
    simp only [Log.add, hd, List.getLast?_concat, and_self]
  have hok := hdrop.ok w
  have hdq : (s.worker w).deque = [] := (h.inv.ok w).deque_nil hst
  have hfits := hok.fits
  have hheld := hok.held
  have hrobbed := hok.robbed
  rw [hworker, hst, held_cons (by simp)] at hheld
  simp only [hworker, Worker.Fits, hctl, hst] at hfits
  rw [hworker, hst] at hrobbed
  -- The thief has an empty queue, so it takes nothing but this task.
  refine hdrop.update hinv w
    { s.worker w with stack := .exec x :: .seek loop .check :: st, ctl := .step } ?_
    ⟨⟨hsnd.1.symm ▸ heval, trivial, ?_⟩, ?_, ?_, ?_, ?_, ?_, by simp, by simp⟩ ?_ ?_ ?_
    hdrop.latched hdrop.once rfl
  · simp [State.go, hworker]
  · cases loop with
    | _ => exact hfits
  · refine (held_cons (by simp)).mpr ⟨hdq ▸ List.nil_prefix, (held_cons (by simp)).mpr ?_⟩
    refine ⟨List.nil_prefix, ?_⟩
    cases loop with
    | _ => exact hheld.2
  · intro f hf t ht y hy
    rcases List.mem_cons.mp hf with rfl | hf'
    · cases ht
    · rcases List.mem_cons.mp hf' with rfl | hmem
      · refine hrobbed (.seek loop .steal) List.mem_cons_self t ?_ y ?_
        · cases loop with
          | _ => exact ht
        · cases loop with
          | _ => exact hy
      · exact hrobbed f (List.mem_cons_of_mem _ hmem) t ht y hy
  · intro t ht
    change t ∈ (s.worker w).deque at ht
    rw [hdq] at ht
    exact absurd ht List.not_mem_nil
  · intro t ht
    cases ht
    exact ⟨by rw [hsnd.1]; exact hready.1, by rw [hsnd.2]; exact hready.2⟩
  · intro t ht
    refine hok.begun t ?_
    have hfresh : (s.worker w).fresh = none := by
      unfold Worker.fresh
      rw [hctl, hst]
    rw [hworker, begun_eq hfresh, hst]
    exact ht
  · exact fun t => Or.inl ⟨rfl, rfl⟩
  · exact fun t => Or.inl ⟨rfl, rfl⟩
  · exact fun t => Or.inl ⟨rfl, rfl⟩

theorem faithful_next (h : Faithful w₀ out s l) (a : Action W A) (hg : enabled s a = true) :
    Faithful w₀ out (next s a) (l.add s a) := by
  -- The tasks are begun by calls; steps and steals move them.
  cases a with
  | step w =>
      have hadd : (s.worker w).fresh = none → l.add s (.step w) = l := by
        intro hfresh
        simp only [Log.add, hfresh]
      simp only [next, step]
      cases hctl : (s.worker w).ctl with
      | run p =>
          rw [hadd (fresh_of_closure (by rw [hctl]; rfl))]
          exact faithful_start h w p hctl
      | ret v =>
          rw [hadd (fresh_of_closure (by rw [hctl]; rfl))]
          exact faithful_ret h w v hctl
      | unwind =>
          rw [hadd (fresh_of_closure (by rw [hctl]; rfl))]
          exact faithful_unwind h w hctl
      | step => exact faithful_advance h w hctl
      | exited | dead =>
          rw [hadd (by simp only [Worker.fresh, hctl])]
          exact h
  | call w t =>
      simp only [enabled, Bool.and_eq_true] at hg
      exact faithful_call h w t hg.2
  | steal w v =>
      simp only [enabled, Bool.and_eq_true] at hg
      exact faithful_steal h w v hg.2

omit [DecidableEq W] [DecidableEq A] in
theorem faithful_started {handles : List W} {p : Prog V} (hs : Started s w₀ handles p)
    (hp : p.eval = some out) : Faithful w₀ out s Log.empty := by
  have hnot : w₀ ∉ handles := fun hmem => (hs.others.2 w₀).mp hmem rfl
  refine ⟨inv_started hs, ?_, ?_, ?_, hs.running.2⟩
  · intro w
    -- One worker has the program, and the others are idle.
    by_cases hw : w = w₀
    · subst hw
      rcases hs.root with hr | hr
      all_goals
        rw [hr]
        refine ⟨⟨out, hp, rfl, rfl, hnot⟩, ⟨List.nil_prefix, rfl⟩, ?_, by nofun, by nofun, ?_,
          by nofun, by nofun⟩
        · intro f hf t ht
          rw [List.mem_singleton.mp hf] at ht
          cases ht
        · intro t ht
          cases ht
    · rw [hs.idle w hw]
      refine ⟨hw, ⟨List.nil_prefix, rfl⟩, ?_, by nofun, by nofun, ?_, by nofun, by nofun⟩
      · intro f hf t ht
        rw [List.mem_singleton.mp hf] at ht
        cases ht
      · intro t ht
        cases ht
  · intro t ht
    rw [hs.fresh t] at ht
    cases ht
  · exact fun t => Nat.zero_le 1

end Scoped

end Cmpth

import Cmpth.Join.Joiner

/-!
# Dangling Joiners

When the address in a join word is still that of the task that registered it.

A worker's `polling_async` is the descriptor of its innermost pass, which is
the task that polls the handle, and a task that is being polled is not
reclaimed. So what is registered is right at that time. It stays right exactly
as long as no descriptor is reclaimed while a join word names it, or while a
completing task has read it from one.

The code does not see to that. `dangling_settled` has both ways to break it: a
task that finishes without the handle it has polled, and a joiner that sees
`FINISHED` and goes away before the completing task claims it.

## Main definitions

* `Restores`: The passes of a worker and what each restores.
* `Running`: The descriptor's task has not finished.
* `Inv`: A task that has not finished is in one place.

## Theorems

* `inv_init`: The invariant holds at the beginning.
* `Inv.keep`: Words and memory change, and no unfinished task is lost.
* `Inv.move`: A worker's passes change, and with them the state of one task `d`, which from then on
  is polled by this worker or not at all.
* `stack_of_polls`: Who polls has a pass on top that does.
* `inv_pops`: A queued task is polled by the worker that takes it.
* `Inv.leave`: The innermost pass returns, and its task is polled by nobody.
* `Inv.not_queued`: A polled task is not queued.
* `inv_pend`, `inv_woken`: A poll that returns `Pending`, and a wake.
* `inv_complete`: Whatever the word asked for, the finished task is polled no more.
* `Inv.note`: A wake of a task that is being polled or is queued is noted.
* `Inv.unclaimed`: A pass that has claimed nobody returns.
* `inv_claim`: Symmetric transfer takes a parked task, whichever it is.
* `inv_spawn`: A task in memory that nobody uses.
* `Inv.write`: A word is overwritten.
* `Inv.reclaim`: A finished task's descriptor is reclaimed.
* `inv_next`: Every action keeps the invariant.
* `live_of_not_reclaims`: A step reclaims the descriptor it says, and no other.
* `current_of_register`: What is registered is the task that polls the handle.
* `Names.old`: Words lose names, and passes that claim are no new ones.
* `word_update`, `names_leave`, `names_complete`: Which names a step leaves.
* `stack_update`: The passes of one worker are replaced by some that were there and some that claim
  nobody.
* `names_enter`: A pass that begins claims nobody.
* `names_next`: Where a name comes from: it was there, or is registered now.
* `live_next`: A step that reclaims nothing named keeps the joiners live.
* `not_live`: Any other step leaves a dangling one.
* `settlesLive_of_live`: What is settled is named.
* `live_init`: At the beginning nothing is named.
* `settles_live_iff`: Which runs settle only live joiners.
* `settles_live_iff_awaits`: A task that awaits another.
* `dangling_settled`: Two runs that settle a dangling one.
-/

namespace Cmpth

namespace Join

namespace Joiner

open Waker (WakeState)

variable {D W : Type*}

/-- The task that the pass polls. -/
def Frame.polled (f : Frame D) : Option D :=
  match f.stage with
  | .polling => some f.desc
  | .claiming _ _ => none

/-- `polling_async` is the innermost pass's descriptor, and each pass restores
    what it was before. -/
def Restores : List (Frame D) → Option D → Prop
  | [], p => p = none
  | f :: st, p => p = some f.desc ∧ Restores st f.prev

/-- The tasks that the worker polls. -/
def State.polled (s : State D W) (w : W) : List D :=
  (s.stack w).filterMap Frame.polled

/-- The task of the descriptor has not finished. -/
def Running (s : State D W) (d : D) : Prop :=
  s.live d = true ∧ s.word d ≠ .finished

/-- A task that has not finished is queued, parked or in one worker's hands. -/
structure Inv (s : State D W) : Prop where
  restores : ∀ w, Restores (s.stack w) (s.polling w)
  queued : ∀ d, s.queued d = true → Running s d ∧ s.wake d ≠ .parked ∧ ∀ w, d ∉ s.polled w
  parked : ∀ d, s.wake d = .parked → Running s d ∧ ∀ w, d ∉ s.polled w
  polled : ∀ w d, d ∈ s.polled w → Running s d
  nodup : ∀ w, (s.polled w).Nodup
  unique : ∀ w w' d, d ∈ s.polled w → d ∈ s.polled w' → w = w'

theorem inv_init {s : State D W} (h : init s) : Inv s := by
  obtain ⟨hd, hw⟩ := h
  -- Nobody polls anything, and no memory is live.
  have hnone : ∀ w, s.polled w = [] := by
    intro w
    rw [State.polled, (hw w).1]
    rfl
  constructor
  case restores =>
    intro w
    rw [(hw w).1, (hw w).2]
    rfl
  case queued =>
    intro d hq
    rw [(hd d).2.2.2.2] at hq
    cases hq
  case parked =>
    intro d hp
    rw [(hd d).2.2.2.1] at hp
    cases hp
  case polled =>
    intro w d hmem
    rw [hnone w] at hmem
    exact absurd hmem List.not_mem_nil
  case nodup =>
    intro w
    rw [hnone w]
    exact List.nodup_nil
  case unique =>
    intro w w' d hmem
    rw [hnone w] at hmem
    exact absurd hmem List.not_mem_nil

/-- Words and memory change, and no unfinished task is lost. -/
theorem Inv.keep {s s' : State D W} (h : Inv s) (hrun : ∀ d, Running s d → Running s' d)
    (hwake : s'.wake = s.wake) (hqueued : s'.queued = s.queued) (hstack : s'.stack = s.stack)
    (hpolling : s'.polling = s.polling) : Inv s' := by
  -- The stacks are as before, and so is who is polled.
  have hpolled : s'.polled = s.polled := by
    funext w
    rw [State.polled, State.polled, hstack]
  constructor
  case restores =>
    rw [hstack, hpolling]
    exact h.restores
  case queued =>
    intro d hq
    rw [hqueued] at hq
    rw [hwake, hpolled]
    exact ⟨hrun d (h.queued d hq).1, (h.queued d hq).2⟩
  case parked =>
    intro d hp
    rw [hwake] at hp
    rw [hpolled]
    exact ⟨hrun d (h.parked d hp).1, (h.parked d hp).2⟩
  case polled =>
    intro w d hmem
    rw [hpolled] at hmem
    exact hrun d (h.polled w d hmem)
  case nodup =>
    rw [hpolled]
    exact h.nodup
  case unique =>
    rw [hpolled]
    exact h.unique

variable [DecidableEq W]

/-- A worker's passes change, and with them the state of one task `d`, which
    from then on is polled by this worker or not at all. -/
theorem Inv.move {s s' : State D W} (h : Inv s) (w : W) (d : D)
    {l : List (Frame D)} {p : Option D}
    (hstack : s'.stack = Function.update s.stack w l)
    (hpolling : s'.polling = Function.update s.polling w p) (hrest : Restores l p)
    (hother : ∀ t, t ≠ d → s'.live t = s.live t ∧ s'.word t = s.word t ∧
      s'.wake t = s.wake t ∧ s'.queued t = s.queued t)
    (hmem : ∀ t, t ≠ d → (t ∈ l.filterMap Frame.polled ↔ t ∈ s.polled w))
    (hnodup : (l.filterMap Frame.polled).Nodup)
    (helse : ∀ w', w' ≠ w → d ∉ s.polled w')
    (hqueued : s'.queued d = true →
      Running s' d ∧ s'.wake d ≠ .parked ∧ d ∉ l.filterMap Frame.polled)
    (hparked : s'.wake d = .parked → Running s' d ∧ d ∉ l.filterMap Frame.polled)
    (hpolled : d ∈ l.filterMap Frame.polled → Running s' d) : Inv s' := by
  -- The passes of the other workers are as before, and of `w` they are `l`.
  have hself : s'.polled w = l.filterMap Frame.polled := by
    rw [State.polled, hstack, Function.update_self]
  have hothers : ∀ w', w' ≠ w → s'.polled w' = s.polled w' := by
    intro w' hne
    rw [State.polled, hstack, Function.update_of_ne hne]
    rfl
  -- A task other than `d` is polled by whom it was polled by.
  have hsame : ∀ t, t ≠ d → ∀ w', t ∈ s'.polled w' ↔ t ∈ s.polled w' := by
    intro t ht w'
    by_cases hw : w' = w
    · subst hw
      rw [hself]
      exact hmem t ht
    · rw [hothers w' hw]
  have hnone : d ∉ l.filterMap Frame.polled → ∀ w', d ∉ s'.polled w' := by
    intro hd w'
    by_cases hw : w' = w
    · subst hw
      rw [hself]
      exact hd
    · rw [hothers w' hw]
      exact helse w' hw
  have hrun : ∀ t, t ≠ d → Running s t → Running s' t := by
    intro t ht hr
    rw [Running, (hother t ht).1, (hother t ht).2.1]
    exact hr
  -- Each field is split twice: by the worker, and by whether the task is `d`.
  constructor
  case restores =>
    intro w'
    by_cases hw : w' = w
    · subst hw
      rw [hstack, hpolling, Function.update_self, Function.update_self]
      exact hrest
    · rw [hstack, hpolling, Function.update_of_ne hw, Function.update_of_ne hw]
      exact h.restores w'
  case queued =>
    intro t hq
    by_cases ht : t = d
    · subst ht
      obtain ⟨hr, hp, hd⟩ := hqueued hq
      exact ⟨hr, hp, hnone hd⟩
    · rw [(hother t ht).2.2.2] at hq
      obtain ⟨hr, hp, hd⟩ := h.queued t hq
      refine ⟨hrun t ht hr, (hother t ht).2.2.1 ▸ hp, fun w' => ?_⟩
      rw [hsame t ht w']
      exact hd w'
  case parked =>
    intro t hp
    by_cases ht : t = d
    · subst ht
      obtain ⟨hr, hd⟩ := hparked hp
      exact ⟨hr, hnone hd⟩
    · rw [(hother t ht).2.2.1] at hp
      obtain ⟨hr, hd⟩ := h.parked t hp
      refine ⟨hrun t ht hr, fun w' => ?_⟩
      rw [hsame t ht w']
      exact hd w'
  case polled =>
    intro w' t hmem'
    by_cases ht : t = d
    · subst ht
      by_cases hw : w' = w
      · subst hw
        exact hpolled (hself ▸ hmem')
      · rw [hothers w' hw] at hmem'
        exact absurd hmem' (helse w' hw)
    · exact hrun t ht (h.polled w' t ((hsame t ht w').mp hmem'))
  case nodup =>
    intro w'
    by_cases hw : w' = w
    · subst hw
      rw [hself]
      exact hnodup
    · rw [hothers w' hw]
      exact h.nodup w'
  case unique =>
    intro x y t hx hy
    by_cases ht : t = d
    · subst ht
      by_cases hxw : x = w
      · by_cases hyw : y = w
        · rw [hxw, hyw]
        · rw [hothers y hyw] at hy
          exact absurd hy (helse y hyw)
      · rw [hothers x hxw] at hx
        exact absurd hx (helse x hxw)
    · exact h.unique x y t ((hsame t ht x).mp hx) ((hsame t ht y).mp hy)

omit [DecidableEq W] in
theorem stack_of_polls {s : State D W} {w : W} (h : polls s w = true) :
    ∃ d p st, s.stack w = ⟨d, p, .polling⟩ :: st := by
  unfold polls at h
  split at h
  · exact ⟨_, _, _, ‹_›⟩
  · cases h

variable [DecidableEq D]

/-- A queued task is polled by the worker that takes it. -/
theorem inv_pops {s : State D W} (h : Inv s) (w : W) (d : D) (hq : s.queued d = true) :
    Inv (s.pops w d) := by
  obtain ⟨hrun, hwake, hno⟩ := h.queued d hq
  -- It was queued, so that nobody polls it.
  have hfresh : d ∉ (s.stack w).filterMap Frame.polled := hno w
  refine h.move w d (l := ⟨d, s.polling w, .polling⟩ :: s.stack w) rfl rfl
    ⟨rfl, h.restores w⟩ ?_ ?_ ?_ (fun w' _ => hno w') ?_ ?_ (fun _ => hrun)
  · intro t ht
    exact ⟨rfl, rfl, Function.update_of_ne ht _ _, Function.update_of_ne ht _ _⟩
  · intro t ht
    exact ⟨fun hm => (List.mem_cons.mp hm).resolve_left ht, List.mem_cons_of_mem _⟩
  · exact List.nodup_cons.mpr ⟨hfresh, h.nodup w⟩
  · intro hq'
    change Function.update s.queued d false d = true at hq'
    rw [Function.update_self] at hq'
    cases hq'
  · intro hp
    change Function.update s.wake d .polling d = .parked at hp
    rw [Function.update_self] at hp
    cases hp

omit [DecidableEq D] in
/-- The innermost pass returns, and its task is polled by nobody. -/
theorem Inv.leave {s s' : State D W} (h : Inv s) {w : W} {d : D} {p : Option D}
    {st : List (Frame D)} (hst : s.stack w = ⟨d, p, .polling⟩ :: st)
    (hstack : s'.stack = Function.update s.stack w st)
    (hpolling : s'.polling = Function.update s.polling w p)
    (hother : ∀ t, t ≠ d → s'.live t = s.live t ∧ s'.word t = s.word t ∧
      s'.wake t = s.wake t ∧ s'.queued t = s.queued t)
    (hqueued : s'.queued d = true → Running s' d ∧ s'.wake d ≠ .parked)
    (hparked : s'.wake d = .parked → Running s' d) : Inv s' := by
  -- The innermost pass is of the task that leaves.
  have hpolled : s.polled w = d :: st.filterMap Frame.polled := by
    rw [State.polled, hst]
    rfl
  have hnd := h.nodup w
  rw [hpolled, List.nodup_cons] at hnd
  have hrest := h.restores w
  rw [hst] at hrest
  refine h.move w d hstack hpolling hrest.2 hother ?_ hnd.2 ?_ ?_ ?_ ?_
  · intro t ht
    rw [hpolled]
    exact ⟨List.mem_cons_of_mem _, fun hm => (List.mem_cons.mp hm).resolve_left ht⟩
  · intro w' hw hmem
    exact hw (h.unique w' w d hmem (hpolled ▸ List.mem_cons_self))
  · exact fun hq => ⟨(hqueued hq).1, (hqueued hq).2, hnd.1⟩
  · exact fun hp => ⟨hparked hp, hnd.1⟩
  · exact fun hmem => absurd hmem hnd.1

omit [DecidableEq W] [DecidableEq D] in
/-- A polled task is not queued. -/
theorem Inv.not_queued {s : State D W} (h : Inv s) {w : W} {d : D} (hd : d ∈ s.polled w) :
    s.queued d = false := by
  by_contra hq
  rw [Bool.not_eq_false] at hq
  exact (h.queued d hq).2.2 w hd

theorem inv_pend {s : State D W} (h : Inv s) (w : W) (hg : polls s w = true) :
    Inv (next s (.pend w)) := by
  obtain ⟨d, p, st, hst⟩ := stack_of_polls hg
  have hd : d ∈ s.polled w := by
    rw [State.polled, hst]
    exact List.mem_cons_self
  have hrun := h.polled w d hd
  have hq := h.not_queued hd
  simp only [next, hst]
  -- A wake raced with the poll, so that the task is queued again; or it parks.
  split
  · refine h.leave hst rfl rfl ?_ ?_ ?_
    · intro t ht
      exact ⟨rfl, rfl, Function.update_of_ne ht _ _, Function.update_of_ne ht _ _⟩
    · intro _
      refine ⟨hrun, ?_⟩
      change Function.update s.wake d .polling d ≠ .parked
      rw [Function.update_self]
      simp
    · exact fun _ => hrun
  · refine h.leave hst rfl rfl ?_ ?_ (fun _ => hrun)
    · intro t ht
      exact ⟨rfl, rfl, Function.update_of_ne ht _ _, rfl⟩
    · intro hq'
      change s.queued d = true at hq'
      rw [hq] at hq'
      cases hq'

/-- Whatever the word asked for, the finished task is polled no more. -/
theorem inv_complete {s : State D W} (h : Inv s) (w : W) (hg : polls s w = true) :
    Inv (complete s w) := by
  obtain ⟨d, p, st, hst⟩ := stack_of_polls hg
  have hpolled : s.polled w = d :: st.filterMap Frame.polled := by
    rw [State.polled, hst]
    rfl
  have hd : d ∈ s.polled w := hpolled ▸ List.mem_cons_self
  have hq := h.not_queued hd
  have hidle : Function.update s.wake d .idle d ≠ WakeState.parked := by
    rw [Function.update_self]
    nofun
  -- The task is being polled, so it is in no queue and not parked.
  have hnoq : s.queued d = true → False := by
    intro hq'
    rw [hq] at hq'
    cases hq'
  have hother : ∀ t, t ≠ d → Function.update s.word d JoinState.finished t = s.word t ∧
      Function.update s.wake d WakeState.idle t = s.wake t := fun t ht =>
    ⟨Function.update_of_ne ht _ _, Function.update_of_ne ht _ _⟩
  simp only [complete, hst]
  split
  · -- The joiner that was read is claimed next.
    rename_i j hj
    have hnd := h.nodup w
    rw [hpolled, List.nodup_cons] at hnd
    refine h.move w d (l := ⟨d, p, .claiming j (s.registrant d)⟩ :: st) (p := s.polling w) rfl ?_ ?_
      ?_ ?_ hnd.2 ?_ ?_ ?_ ?_
    · exact (Function.update_eq_self w s.polling).symm
    · have hrest := h.restores w
      rw [hst] at hrest
      exact hrest
    · intro t ht
      exact ⟨rfl, (hother t ht).1, (hother t ht).2, rfl⟩
    · intro t ht
      rw [hpolled]
      exact ⟨List.mem_cons_of_mem _, fun hm => (List.mem_cons.mp hm).resolve_left ht⟩
    · intro w' hw hmem
      exact hw (h.unique w' w d hmem hd)
    · exact fun hq' => (hnoq hq').elim
    · exact fun hp => absurd hp hidle
    · exact fun hmem => absurd hmem hnd.1
  · refine h.leave hst rfl rfl ?_ (fun hq' => (hnoq hq').elim) fun hp => absurd hp hidle
    intro t ht
    exact ⟨Function.update_of_ne ht _ _, (hother t ht).1, (hother t ht).2, rfl⟩
  all_goals
    refine h.leave hst rfl rfl ?_ (fun hq' => (hnoq hq').elim) fun hp => absurd hp hidle
    intro t ht
    exact ⟨rfl, (hother t ht).1, (hother t ht).2, rfl⟩

omit [DecidableEq W] in
/-- A wake of a task that is being polled or is queued is noted. -/
theorem Inv.note {s : State D W} (h : Inv s) {j : D} (hj : s.wake j = .polling) :
    Inv { s with wake := Function.update s.wake j .notified } := by
  have hwake : ∀ d, Function.update s.wake j .notified d = .parked → s.wake d = .parked := by
    intro d hd
    by_cases hdj : d = j
    · subst hdj
      rw [Function.update_self] at hd
      cases hd
    · rwa [Function.update_of_ne hdj] at hd
  exact
    { restores := h.restores
      queued := fun d hq =>
        ⟨(h.queued d hq).1, fun hp => (h.queued d hq).2.1 (hwake d hp), (h.queued d hq).2.2⟩
      parked := fun d hp => h.parked d (hwake d hp)
      polled := h.polled
      nodup := h.nodup
      unique := h.unique }

omit [DecidableEq D] in
/-- A pass that has claimed nobody returns. -/
theorem Inv.unclaimed {s : State D W} (h : Inv s) {w : W} {d j : D} {p : Option D} {r : Task D}
    {st : List (Frame D)} (hst : s.stack w = ⟨d, p, .claiming j r⟩ :: st) :
    Inv (s.leave w p st) := by
  have hrest := h.restores w
  rw [hst] at hrest
  -- The pass that returns polls nothing, so the others are all there were.
  have hself : s.polled w = st.filterMap Frame.polled := by
    rw [State.polled, hst]
    rfl
  have hpolled : (s.leave w p st).polled = s.polled := by
    funext w'
    change (Function.update s.stack w st w').filterMap Frame.polled = _
    by_cases hw : w' = w
    · subst hw
      rw [Function.update_self, hself]
    · rw [Function.update_of_ne hw]
      rfl
  constructor
  case restores =>
    intro w'
    change Restores (Function.update s.stack w st w') (Function.update s.polling w p w')
    by_cases hw : w' = w
    · subst hw
      rw [Function.update_self, Function.update_self]
      exact hrest.2
    · rw [Function.update_of_ne hw, Function.update_of_ne hw]
      exact h.restores w'
  all_goals
    rw [hpolled]
  · exact h.queued
  · exact h.parked
  · exact h.polled
  · exact h.nodup
  · exact h.unique

/-- Symmetric transfer takes a parked task, whichever it is. -/
theorem inv_claim {s : State D W} (h : Inv s) (w : W) : Inv (claim s w) := by
  unfold claim
  split
  case h_2 => exact h
  rename_i d p j r st hst
  have hrest := h.restores w
  rw [hst] at hrest
  -- The pass that claims has finished its own task.
  have hpolled : s.polled w = st.filterMap Frame.polled := by
    rw [State.polled, hst]
    rfl
  have hnd := h.nodup w
  rw [hpolled] at hnd
  split
  · rename_i hj
    obtain ⟨hrun, hno⟩ := h.parked j hj
    have hnoq : s.queued j = true → False := fun hq => (h.queued j hq).2.1 hj
    refine h.move w j (l := ⟨j, p, .polling⟩ :: st) rfl rfl ⟨rfl, hrest.2⟩ ?_ ?_ ?_
      (fun w' _ => hno w') (fun hq => (hnoq hq).elim) ?_ (fun _ => hrun)
    · exact fun t ht => ⟨rfl, rfl, Function.update_of_ne ht _ _, rfl⟩
    · intro t ht
      rw [hpolled]
      exact ⟨fun hm => (List.mem_cons.mp hm).resolve_left ht, List.mem_cons_of_mem _⟩
    · exact List.nodup_cons.mpr ⟨hpolled ▸ hno w, hnd⟩
    · intro hp
      change Function.update s.wake j .polling j = .parked at hp
      rw [Function.update_self] at hp
      cases hp
  · rename_i hj
    exact (h.note hj).unclaimed hst
  · exact h.unclaimed hst
  · exact h.unclaimed hst

omit [DecidableEq W] in
theorem inv_woken {s : State D W} (h : Inv s) (d : D) : Inv (s.woken d) := by
  unfold State.woken
  split
  · rename_i hd
    exact h.note hd
  · rename_i hd
    -- A parked task is queued; nobody polls it.
    obtain ⟨hrun, hno⟩ := h.parked d hd
    constructor
    case restores => exact h.restores
    case queued =>
      intro t hq
      change Function.update s.queued d true t = true at hq
      change Running s t ∧ Function.update s.wake d .polling t ≠ .parked ∧ _
      by_cases ht : t = d
      · subst ht
        rw [Function.update_self]
        exact ⟨hrun, by nofun, hno⟩
      · rw [Function.update_of_ne ht] at hq ⊢
        exact h.queued t hq
    case parked =>
      intro t hp
      change Function.update s.wake d .polling t = .parked at hp
      by_cases ht : t = d
      · subst ht
        rw [Function.update_self] at hp
        cases hp
      · rw [Function.update_of_ne ht] at hp
        exact h.parked t hp
    case polled => exact h.polled
    case nodup => exact h.nodup
    case unique => exact h.unique
  · exact h
  · exact h

/-- A task in memory that nobody uses. -/
theorem inv_spawn {s : State D W} (h : Inv s) (d : D) (root : Bool) (hg : s.live d = false) :
    Inv (next s (.spawn d root)) := by
  -- Its memory was not live, so no task that is running is there.
  have hnot : ¬ Running s d := by
    intro hr
    rw [Running, hg] at hr
    cases hr.1
  have hrun : ∀ t, t ≠ d → Running s t → Running (next s (.spawn d root)) t := by
    intro t ht hr
    refine ⟨?_, ?_⟩
    · exact (Function.update_of_ne ht _ _).trans hr.1
    · change Function.update s.word d _ t ≠ _
      rw [Function.update_of_ne ht]
      exact hr.2
  have hnew : Running (next s (.spawn d root)) d := by
    refine ⟨Function.update_self .., ?_⟩
    change Function.update s.word d _ d ≠ _
    rw [Function.update_self]
    cases root <;> nofun
  constructor
  case restores => exact h.restores
  case queued =>
    intro t hq
    change Function.update s.queued d true t = true at hq
    change _ ∧ Function.update s.wake d .idle t ≠ .parked ∧ _
    by_cases ht : t = d
    · subst ht
      rw [Function.update_self]
      exact ⟨hnew, by nofun, fun w hmem => hnot (h.polled w t hmem)⟩
    · rw [Function.update_of_ne ht] at hq ⊢
      exact ⟨hrun t ht (h.queued t hq).1, (h.queued t hq).2⟩
  case parked =>
    intro t hp
    change Function.update s.wake d .idle t = .parked at hp
    by_cases ht : t = d
    · subst ht
      rw [Function.update_self] at hp
      cases hp
    · rw [Function.update_of_ne ht] at hp
      exact ⟨hrun t ht (h.parked t hp).1, (h.parked t hp).2⟩
  case polled =>
    intro w t hmem
    have ht : t ≠ d := fun heq => hnot (heq ▸ h.polled w t hmem)
    exact hrun t ht (h.polled w t hmem)
  case nodup => exact h.nodup
  case unique => exact h.unique

omit [DecidableEq W] in
/-- A word is overwritten. -/
theorem Inv.write {s s' : State D W} (h : Inv s) (d : D) {x : JoinState D} (hx : x ≠ .finished)
    (hword : s'.word = Function.update s.word d x) (hlive : s'.live = s.live)
    (hwake : s'.wake = s.wake) (hqueued : s'.queued = s.queued) (hstack : s'.stack = s.stack)
    (hpolling : s'.polling = s.polling) : Inv s' := by
  refine h.keep ?_ hwake hqueued hstack hpolling
  intro t hr
  rw [Running, hword, hlive]
  refine ⟨hr.1, ?_⟩
  by_cases ht : t = d
  · rw [ht, Function.update_self]
    exact hx
  · rw [Function.update_of_ne ht]
    exact hr.2

omit [DecidableEq W] in
/-- A finished task's descriptor is reclaimed. -/
theorem Inv.reclaim {s s' : State D W} (h : Inv s) (d : D) (hd : s.word d = .finished)
    (hword : s'.word = s.word) (hlive : s'.live = Function.update s.live d false)
    (hwake : s'.wake = s.wake) (hqueued : s'.queued = s.queued) (hstack : s'.stack = s.stack)
    (hpolling : s'.polling = s.polling) : Inv s' := by
  refine h.keep ?_ hwake hqueued hstack hpolling
  intro t hr
  have ht : t ≠ d := fun heq => hr.2 (heq ▸ hd)
  rw [Running, hword, hlive, Function.update_of_ne ht]
  exact hr

theorem inv_next {s : State D W} (h : Inv s) (a : Action D W) (hg : guard s a) :
    Inv (next s a) := by
  -- One lemma for each thing that can happen to a task.
  cases a with
  | spawn d root => exact inv_spawn h d root hg
  | dispatch w d => exact inv_pops h w d hg.2
  | reclaimRun w d => exact inv_pops h w d hg.2.1
  | register w d =>
      simp only [next]
      split
      · rename_i j f st _ _
        exact h.write d (x := .asyncJoiner j) (by simp) rfl rfl rfl rfl rfl rfl
      · exact h
  | boxWaker w d => exact h.write d (x := .asyncWaker d) (by simp) rfl rfl rfl rfl rfl rfl
  | join d j => exact h.write d (x := .syncJoiner j) (by simp) rfl rfl rfl rfl rfl rfl
  | take d => exact h.reclaim d hg.2 rfl rfl rfl rfl rfl rfl
  | drop d =>
      simp only [next]
      split
      · rename_i hd
        exact h.reclaim d hd rfl rfl rfl rfl rfl rfl
      · exact h.write d (x := .detached) (by simp) rfl rfl rfl rfl rfl rfl
  | wake d => exact inv_woken h d
  | pend w => exact inv_pend h w hg
  | complete w => exact inv_complete h w hg
  | claim w => exact inv_claim h w

/-- A step reclaims the descriptor it says, and no other. -/
theorem live_of_not_reclaims {s : State D W} (a : Action D W) (d : D)
    (hd : s.live d = true) (hg : guard s a) (ha : reclaims s a ≠ some d) :
    (next s a).live d = true ∧ (next s a).gen d = s.gen d := by
  -- Only a `take`, a `drop` and the end of a detached task free a descriptor.
  cases a with
  | spawn t root =>
      have ht : d ≠ t := by
        rintro rfl
        rw [show s.live d = false from hg] at hd
        cases hd
      exact ⟨(Function.update_of_ne ht _ _).trans hd, Function.update_of_ne ht _ _⟩
  | take t =>
      have ht : d ≠ t := fun heq => ha (congrArg some heq.symm)
      exact ⟨(Function.update_of_ne ht _ _).trans hd, rfl⟩
  | drop t =>
      simp only [reclaims] at ha
      simp only [next]
      split
      · rename_i hfin
        rw [if_pos hfin] at ha
        have ht : d ≠ t := fun heq => ha (congrArg some heq.symm)
        exact ⟨(Function.update_of_ne ht _ _).trans hd, rfl⟩
      · exact ⟨hd, rfl⟩
  | complete w =>
      simp only [reclaims] at ha
      simp only [next, complete]
      split
      · rename_i f st hst
        rw [hst] at ha
        simp only at ha
        split
        · exact ⟨hd, rfl⟩
        · rename_i hdet
          rw [if_pos hdet] at ha
          have ht : d ≠ f.desc := fun heq => ha (congrArg some heq.symm)
          exact ⟨(Function.update_of_ne ht _ _).trans hd, rfl⟩
        all_goals exact ⟨hd, rfl⟩
      · exact ⟨hd, rfl⟩
  | register w t =>
      simp only [next]
      split
      all_goals exact ⟨hd, rfl⟩
  | wake t =>
      simp only [next, State.woken]
      split
      all_goals exact ⟨hd, rfl⟩
  | pend w =>
      simp only [next]
      split
      · split
        all_goals exact ⟨hd, rfl⟩
      · exact ⟨hd, rfl⟩
  | claim w =>
      simp only [next, claim]
      split
      · split
        all_goals exact ⟨hd, rfl⟩
      · exact ⟨hd, rfl⟩
  | dispatch w t | reclaimRun w t | boxWaker w t | join t j => exact ⟨hd, rfl⟩

omit [DecidableEq W] [DecidableEq D] in
/-- What is registered is the task that polls the handle. -/
theorem current_of_register {s : State D W} (h : Inv s) {w : W} {d j : D}
    {f : Frame D} {st : List (Frame D)} (hg : guard s (.register w d))
    (hj : s.polling w = some j) (hst : s.stack w = f :: st) :
    Current s j (f.desc, s.gen f.desc) := by
  obtain ⟨-, -, hpolls, -⟩ := hg
  obtain ⟨d', p, st', hst'⟩ := stack_of_polls hpolls
  have hrest := h.restores w
  rw [hst, hj] at hrest
  have hdesc : f.desc = j := (Option.some.inj hrest.1).symm
  subst hdesc
  have hmem : f.desc ∈ s.polled w := by
    rw [hst, List.cons.injEq] at hst'
    rw [State.polled, hst, hst'.1]
    exact List.mem_cons_self
  exact ⟨rfl, (h.polled w f.desc hmem).1⟩

omit [DecidableEq W] [DecidableEq D] in
/-- Words lose names, and passes that claim are no new ones. -/
theorem Names.old {s s' : State D W} {j : D} {r : Task D} (h : Names s' j r)
    (hword : ∀ d, s'.word d = .asyncJoiner j → s.word d = .asyncJoiner j)
    (hreg : s'.registrant = s.registrant)
    (hstack : ∀ w, ∀ f ∈ s'.stack w, f.stage = .claiming j r → f ∈ s.stack w) : Names s j r := by
  rcases h with ⟨d, hd, hr⟩ | ⟨w, f, hf, hs⟩
  · exact Or.inl ⟨d, hword d hd, hreg ▸ hr⟩
  · exact Or.inr ⟨w, f, hstack w f hf hs, hs⟩

omit [DecidableEq W] in
theorem word_update {s : State D W} {t d j : D} {x : JoinState D}
    (hx : ∀ j, x ≠ .asyncJoiner j) (h : Function.update s.word t x d = .asyncJoiner j) :
    s.word d = .asyncJoiner j := by
  by_cases hd : d = t
  · subst hd
    rw [Function.update_self] at h
    exact absurd h (hx j)
  · rwa [Function.update_of_ne hd] at h

omit [DecidableEq D] in
/-- The passes of one worker are replaced by some that were there and some that
    claim nobody. -/
theorem stack_update {s : State D W} {w w' : W} {st : List (Frame D)} {j : D} {r : Task D}
    (hst : ∀ f ∈ st, f.stage = .claiming j r → f ∈ s.stack w) {f : Frame D}
    (hf : f ∈ Function.update s.stack w st w') (hs : f.stage = .claiming j r) :
    f ∈ s.stack w' := by
  by_cases hw : w' = w
  · subst hw
    rw [Function.update_self] at hf
    exact hst f hf hs
  · rwa [Function.update_of_ne hw] at hf

/-- A pass that begins claims nobody. -/
theorem names_enter {s : State D W} {w : W} {d : D} {p : Option D} {st : List (Frame D)}
    {j : D} {r : Task D} (hst : ∀ f ∈ st, f ∈ s.stack w)
    (h : Names (s.enter w d p st) j r) : Names s j r := by
  refine h.old (fun _ hd => hd) rfl fun w' f hf hs => stack_update ?_ hf hs
  intro g hg hgs
  rcases List.mem_cons.mp hg with rfl | hmem
  · cases hgs
  · exact hst g hmem

omit [DecidableEq D] in
theorem names_leave {s : State D W} {w : W} {p : Option D} {f : Frame D} {st : List (Frame D)}
    {j : D} {r : Task D} (hst : s.stack w = f :: st) (h : Names (s.leave w p st) j r) :
    Names s j r := by
  refine h.old (fun _ hd => hd) rfl fun w' g hg hs => stack_update ?_ hg hs
  exact fun g hg _ => hst ▸ List.mem_cons_of_mem _ hg

theorem names_complete {s : State D W} {w : W} {j : D} {r : Task D}
    (h : Names (complete s w) j r) : Names s j r := by
  unfold complete at h
  split at h
  case h_2 => exact h
  rename_i f st hst
  have hfin : ∀ d, Function.update s.word f.desc .finished d = .asyncJoiner j →
      s.word d = .asyncJoiner j := fun d hd => word_update (by nofun) hd
  simp only at h
  split at h
  · -- The word's name is the pass's now.
    rename_i j' hj'
    rcases h with ⟨d, hd, hr⟩ | ⟨w', g, hg, hs⟩
    · exact Or.inl ⟨d, hfin d hd, hr⟩
    · by_cases hw : w' = w
      · subst hw
        change g ∈ Function.update s.stack w' _ w' at hg
        rw [Function.update_self] at hg
        rcases List.mem_cons.mp hg with rfl | hmem
        · cases hs
          exact Or.inl ⟨f.desc, hj', rfl⟩
        · exact Or.inr ⟨w', g, hst ▸ List.mem_cons_of_mem _ hmem, hs⟩
      · change g ∈ Function.update s.stack w _ w' at hg
        rw [Function.update_of_ne hw] at hg
        exact Or.inr ⟨w', g, hg, hs⟩
  all_goals
    have hleave : Names (s.leave w f.prev st) j r := h.old hfin rfl fun _ _ hf _ => hf
    exact names_leave hst hleave

/-- Where a name comes from: it was there, or is registered now. -/
theorem names_next {s : State D W} (a : Action D W) {j : D} {r : Task D}
    (h : Names (next s a) j r) :
    Names s j r ∨ ∃ w d f st, a = .register w d ∧ s.polling w = some j ∧
      s.stack w = f :: st ∧ r = (f.desc, s.gen f.desc) := by
  -- A name moves from the word to the pass that completes the task.
  cases a with
  | spawn d root =>
      refine Or.inl (h.old (fun t ht => word_update ?_ ht) rfl fun _ _ hf _ => hf)
      cases root <;> simp
  | dispatch w d | reclaimRun w d =>
      have henter : Names (s.enter w d (s.polling w) (s.stack w)) j r :=
        h.old (fun _ ht => ht) rfl fun _ _ hf _ => hf
      exact Or.inl (names_enter (fun f hf => hf) henter)
  | register w d =>
      simp only [next] at h
      split at h
      · rename_i j' f st hj' hst
        rcases h with ⟨t, ht, hr⟩ | hclaim
        · change Function.update s.word d _ t = _ at ht
          change Function.update s.registrant d _ t = _ at hr
          by_cases htd : t = d
          · subst htd
            rw [Function.update_self] at ht hr
            cases ht
            exact Or.inr ⟨w, t, f, st, rfl, hj', hst, hr.symm⟩
          · rw [Function.update_of_ne htd] at ht hr
            exact Or.inl (Or.inl ⟨t, ht, hr⟩)
        · exact Or.inl (Or.inr hclaim)
      · exact Or.inl h
  | boxWaker w d | join d j' =>
      exact Or.inl (h.old (fun t ht => word_update (by simp) ht) rfl fun _ _ hf _ => hf)
  | take d => exact Or.inl (h.old (fun _ ht => ht) rfl fun _ _ hf _ => hf)
  | drop d =>
      simp only [next] at h
      split at h
      · exact Or.inl (h.old (fun _ ht => ht) rfl fun _ _ hf _ => hf)
      · exact Or.inl (h.old (fun t ht => word_update (by simp) ht) rfl fun _ _ hf _ => hf)
  | wake d =>
      simp only [next, State.woken] at h
      split at h
      all_goals exact Or.inl h
  | pend w =>
      simp only [next] at h
      split at h
      · rename_i f st hst
        split at h
        all_goals
          refine Or.inl (names_leave (p := f.prev) hst ?_)
          exact h.old (fun _ ht => ht) rfl fun _ _ hf _ => hf
      · exact Or.inl h
  | complete w => exact Or.inl (names_complete h)
  | claim w =>
      simp only [next, claim] at h
      split at h
      · rename_i d p j' r' st hst
        split at h
        · exact Or.inl (names_enter (fun f hf => hst ▸ List.mem_cons_of_mem _ hf) h)
        · refine Or.inl (names_leave (p := p) hst ?_)
          exact h.old (fun _ ht => ht) rfl fun _ _ hf _ => hf
        all_goals exact Or.inl (names_leave hst h)
      · exact Or.inl h

/-- A step that reclaims nothing that is named keeps the joiners live. -/
theorem live_next {s : State D W} (hi : Inv s) (h : Live s) (a : Action D W) (hg : guard s a)
    (hc : Unnamed s a) : Live (next s a) := by
  intro j r hn
  have hcurrent : Current s j r := by
    rcases names_next a hn with hold | ⟨w, d, f, st, rfl, hj, hst, rfl⟩
    · exact h j r hold
    · exact current_of_register hi hg hj hst
  have hreclaims : reclaims s a ≠ some j := by
    intro hrec
    rcases names_next a hn with hold | ⟨w, d, f, st, rfl, -⟩
    · exact hc j hrec r hold
    · cases hrec
  obtain ⟨hr, hlive⟩ := hcurrent
  have hkept := live_of_not_reclaims a j hlive hg hreclaims
  exact ⟨by rw [hkept.2]; exact hr, hkept.1⟩

/-- A descriptor that is reclaimed while it is named leaves a dangling name. -/
theorem not_live {s : State D W} (a : Action D W) (hg : guard s a) (hc : ¬ Unnamed s a) :
    ¬ Live (next s a) := by
  unfold Unnamed at hc
  push Not at hc
  obtain ⟨d, hrec, r, hn⟩ := hc
  -- The step neither overwrites the word nor ends the claim.
  have hkept : Names (next s a) d r ∧ (next s a).live d = false := by
    cases a with
    | take t =>
        cases hrec
        exact ⟨hn, Function.update_self ..⟩
    | drop t =>
        simp only [reclaims] at hrec
        split at hrec
        · rename_i hfin
          cases hrec
          simp only [next, if_pos hfin]
          exact ⟨hn, Function.update_self ..⟩
        · cases hrec
    | complete w =>
        simp only [reclaims] at hrec
        split at hrec
        · rename_i f st hst
          split at hrec
          · rename_i hdet
            cases hrec
            simp only [next, complete, hst, hdet]
            refine ⟨?_, Function.update_self ..⟩
            rcases hn with ⟨t, ht, hr⟩ | ⟨w', g, hgm, hs⟩
            · have hne : t ≠ f.desc := by
                rintro rfl
                rw [hdet] at ht
                cases ht
              exact Or.inl ⟨t, (Function.update_of_ne hne _ _).trans ht, hr⟩
            · refine Or.inr ⟨w', g, ?_, hs⟩
              change g ∈ Function.update s.stack w st w'
              by_cases hw : w' = w
              · subst hw
                rw [Function.update_self]
                rw [hst] at hgm
                rcases List.mem_cons.mp hgm with rfl | hmem
                · obtain ⟨d', p, st', hst'⟩ := stack_of_polls (show polls s w' = true from hg)
                  rw [hst, List.cons.injEq] at hst'
                  rw [hst'.1] at hs
                  cases hs
                · exact hmem
              · rwa [Function.update_of_ne hw]
          · cases hrec
        · cases hrec
    | _ => cases hrec
  intro hlive
  have hcur := (hlive d r hkept.1).2
  rw [hkept.2] at hcur
  cases hcur

omit [DecidableEq W] [DecidableEq D] in
/-- What is settled is named. -/
theorem settlesLive_of_live {s : State D W} (h : Live s) (a : Action D W) : SettlesLive s a := by
  cases a with
  | complete w =>
      simp only [SettlesLive]
      split
      · exact fun j hj => h j _ (Or.inl ⟨_, hj, rfl⟩)
      · trivial
  | claim w =>
      simp only [SettlesLive]
      split
      · rename_i hst
        exact h _ _ (Or.inr ⟨w, _, hst ▸ List.mem_cons_self, rfl⟩)
      · trivial
  | _ => trivial

omit [DecidableEq W] [DecidableEq D] in
theorem live_init {s : State D W} (h : init s) : Live s := by
  rintro j r (⟨d, hd, -⟩ | ⟨w, f, hf, -⟩)
  · rw [(h.1 d).2.1] at hd
    cases hd
  · rw [(h.2 w).1] at hf
    exact absurd hf List.not_mem_nil

/-- Nothing is spawned, on two workers. -/
def start : State ℕ Bool where
  gen _ := 0
  live _ := false
  word _ := .finished
  registrant _ := (0, 0)
  handle _ := .gone
  wake _ := .idle
  queued _ := false
  stack _ := []
  polling _ := none

theorem init_start : init start :=
  ⟨fun _ => ⟨rfl, rfl, rfl, rfl, rfl⟩, fun _ => ⟨rfl, rfl⟩⟩

/-- Task 0 awaits task 1, which hands the worker over to it. -/
def awaits : List (Action ℕ Bool) :=
  [.spawn 0 true, .spawn 1 false, .dispatch false 0, .register false 1, .pend false,
    .dispatch false 1, .complete false, .claim false, .take 1, .complete false]

/-- Task 0 polls the handle of task 1 once and finishes without it. -/
def finishesFirst : List (Action ℕ Bool) :=
  [.spawn 0 true, .spawn 1 false, .dispatch false 0, .register false 1, .complete false,
    .dispatch false 1]

/-- Task 0 races the handle of task 1 with a timer. Task 1 reads the joiner, the
    timer wakes task 0, which sees `FINISHED` and finishes. -/
def seesFinished : List (Action ℕ Bool) :=
  [.spawn 0 true, .spawn 1 false, .dispatch false 0, .register false 1, .pend false,
    .dispatch true 1, .complete true, .wake 0, .dispatch false 0, .take 1, .complete false]

end Joiner

end Join

end Cmpth

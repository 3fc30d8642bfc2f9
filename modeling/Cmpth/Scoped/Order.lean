import Cmpth.Scoped.ForkJoin
import Cmpth.Scoped.Latch

/-!
# The Order of Calls

Two times order the calls of a run: when a call began, and when its second
branch was started by a thief. Upwards on a stack these times grow, since what
begins or is started now goes on top, and a thief starts a branch after its
call began.

A step of a worker on its own neither begins a call nor starts a branch. It
lets the topmost frame go on, or leaves it, and with a call's frame its task.

## Main definitions

* `Clock`: When each call began and each branch was started.
* `Quiet`: What a step of one worker does to the stacks.
* `Aged`: The times on each stack grow upwards.
* `Ordered`: What holds of the engine, its history and its times.

## Theorems

* `Quiet.same`, `go_self`, `go_others`, `live_modify`: Steps that leave the stacks alone.
* `Quiet.replace`: The topmost frame goes on as `g`.
* `Quiet.drop`: The topmost frame is left, and its call's task with it.
* `quiet_start`, `quiet_ret`, `quiet_pop`, `quiet_seek`, `quiet_advance`: The steps of a worker, one
  by one.
* `Quiet.ends`: A thread ends at its outermost frame.
* `quiet_unwind`: No branch panics, so unwinding leaves no call.
* `quiet_step`: A step begins no call and starts no branch.
* `Aged.quiet`, `Joined.quiet`, `Owned.quiet`: What such a step keeps.
* `time_congr`: The times of frames that are neither begun nor started now are as they were.
* `Aged.lt_now`: Everything on a stack is older than now.
* `ordered_call`: A call begins now.
* `ordered_steal`: A thief starts a branch now.
* `branchReturns_of_faithful`: In such runs no execution is unwound.
* `ordered_next`: Each operation keeps the order.
* `ordered_started`: The order at the beginning.
-/

namespace Cmpth

namespace Scoped

variable {W A V : Type*}

/-- When each call began and when each second branch was started by a thief. -/
structure Clock (A : Type*) where
  born : A → ℕ
  start : A → ℕ
  now : ℕ

/-- The time of a frame: of its execution's start, or of its call. -/
def Frame.time (c : Clock A) (f : Frame W A V) : Option ℕ :=
  match f.executes with
  | some t => some (c.start t)
  | none => f.owns.map c.born

/-- Upwards on every stack the times grow, and a branch was started after its
    call began. -/
structure Aged (s : State W A V) (c : Clock A) : Prop where
  stack : ∀ w, ((s.worker w).stack.filterMap (Frame.time c)).Pairwise (· > ·)
  exec : ∀ w t, t ∈ (s.worker w).stack.filterMap Frame.executes → c.born t < c.start t
  past : ∀ t, c.born t < c.now ∧ c.start t < c.now

/-- Threads are joined once the pool is finished. -/
def Joined (s : State W A V) : Prop :=
  ∀ w hs o, .join hs o ∈ (s.worker w).stack → s.finished = true

/-- A task that is there has a frame. -/
def Owned (s : State W A V) : Prop :=
  ∀ t, (s.task t).live = true → ∃ w, t ∈ (s.worker w).owns

/-- What a step of worker `w` does to the stacks: nothing to the others', and
    no call and no execution starts on its own. -/
structure Quiet (s s' : State W A V) (w : W) : Prop where
  others : ∀ w', w' ≠ w → (s'.worker w').stack = (s.worker w').stack
  times : ∀ c : Clock A, ((s'.worker w).stack.filterMap (Frame.time c)).Sublist
    ((s.worker w).stack.filterMap (Frame.time c))
  executes : ((s'.worker w).stack.filterMap Frame.executes).Sublist
    ((s.worker w).stack.filterMap Frame.executes)
  owns : ∀ t, (s'.task t).live = true → (s.task t).live = true ∧
    (t ∈ (s.worker w).owns → t ∈ (s'.worker w).owns)
  joins : ∀ hs o, .join hs o ∈ (s'.worker w).stack →
    s'.finished = true ∨ ∃ hs' o', .join hs' o' ∈ (s.worker w).stack
  finished : s.finished = true → s'.finished = true

section

variable [DecidableEq W]

omit [DecidableEq W] in
theorem Quiet.same (s : State W A V) (w : W) : Quiet s s w where
  others _ _ := rfl
  times _ := List.Sublist.refl _
  executes := List.Sublist.refl _
  owns _ h := ⟨h, id⟩
  joins hs o h := Or.inr ⟨hs, o, h⟩
  finished := id

omit [DecidableEq W] in
/-- The topmost frame goes on as `g`. -/
theorem Quiet.replace {s s' : State W A V} {w : W} {f g : Frame W A V}
    {st : List (Frame W A V)} (hst : (s.worker w).stack = f :: st)
    (hself : (s'.worker w).stack = g :: st)
    (hothers : ∀ w', w' ≠ w → (s'.worker w').stack = (s.worker w').stack)
    (howns : g.owns = f.owns) (hexec : g.executes = f.executes)
    (hlive : ∀ t, (s'.task t).live = (s.task t).live)
    (hjoin : ∀ hs o, g = .join hs o → s'.finished = true ∨ ∃ hs' o', f = .join hs' o')
    (hfin : s.finished = true → s'.finished = true) : Quiet s s' w := by
  -- Both frames are of the same call, so they have the same time.
  have htime : ∀ c : Clock A, g.time c = f.time c := by
    intro c
    simp only [Frame.time, howns, hexec]
  refine ⟨hothers, ?_, ?_, ?_, ?_, hfin⟩
  · intro c
    rw [hst, hself]
    simp only [List.filterMap_cons, htime]
    exact List.Sublist.refl _
  · rw [hst, hself]
    simp only [List.filterMap_cons, hexec]
    exact List.Sublist.refl _
  · intro t ht
    refine ⟨hlive t ▸ ht, fun hmem => ?_⟩
    rw [Worker.owns, hst] at hmem
    rw [Worker.owns, hself]
    simpa only [List.filterMap_cons, howns] using hmem
  · intro hs o hmem
    rw [hself] at hmem
    rcases List.mem_cons.mp hmem with heq | hold
    · rcases hjoin hs o heq.symm with hf | ⟨hs', o', rfl⟩
      · exact Or.inl hf
      · exact Or.inr ⟨hs', o', hst ▸ List.mem_cons_self⟩
    · exact Or.inr ⟨hs, o, hst ▸ List.mem_cons_of_mem _ hold⟩

omit [DecidableEq W] in
/-- The topmost frame is left, and its call's task with it. -/
theorem Quiet.drop {s s' : State W A V} {w : W} {f : Frame W A V}
    {st : List (Frame W A V)} (hst : (s.worker w).stack = f :: st)
    (hself : (s'.worker w).stack = st)
    (hothers : ∀ w', w' ≠ w → (s'.worker w').stack = (s.worker w').stack)
    (hlive : ∀ t, (s'.task t).live = true → (s.task t).live = true ∧ f.owns ≠ some t)
    (hfin : s'.finished = s.finished) : Quiet s s' w := by
  have hsub : st.Sublist (f :: st) := List.sublist_cons_self _ _
  refine ⟨hothers, ?_, ?_, ?_, ?_, fun h => hfin.trans h⟩
  · intro c
    rw [hst, hself]
    exact hsub.filterMap _
  · rw [hst, hself]
    exact hsub.filterMap _
  · intro t ht
    refine ⟨(hlive t ht).1, fun hmem => ?_⟩
    rw [Worker.owns, hst] at hmem
    rw [Worker.owns, hself]
    -- A task that is live is not the one of the frame that is left.
    rcases List.mem_filterMap.mp hmem with ⟨g, hg, hgt⟩
    rcases List.mem_cons.mp hg with rfl | hrest
    · exact absurd hgt (hlive t ht).2
    · exact List.mem_filterMap.mpr ⟨g, hrest, hgt⟩
  · intro hs o hmem
    rw [hself] at hmem
    exact Or.inr ⟨hs, o, hst ▸ List.mem_cons_of_mem _ hmem⟩

@[simp] theorem go_self (s : State W A V) (w : W) (st : List (Frame W A V)) (c : Control V) :
    ((s.go w st c).worker w).stack = st := by
  simp only [State.go, Function.update_self]

theorem go_others (s : State W A V) (w : W) (st : List (Frame W A V)) (c : Control V) :
    ∀ w', w' ≠ w → ((s.go w st c).worker w').stack = (s.worker w').stack := by
  intro w' hne
  simp only [State.go, Function.update_of_ne hne]

variable {w₀ : W} {out : Option V} {s s' : State W A V} {l : Log A V}

theorem quiet_start (w : W) (p : Prog V) : Quiet s (start s w p (s.worker w).stack) w := by
  -- A program begins nothing by itself but its first statement.
  cases p with
  | parallelCall a b k => exact Quiet.same s w
  | ret v | panic =>
      refine ⟨go_others _ _ _ _, ?_, ?_, ?_, ?_, id⟩
      · exact fun c => by rw [start, go_self]
      · rw [start, go_self]
      · exact fun t ht => ⟨ht, fun h => by rw [start, Worker.owns, go_self]; exact h⟩
      · exact fun hs o hmem => Or.inr ⟨hs, o, by rwa [start, go_self] at hmem⟩
  | catchUnwind p k =>
      refine ⟨go_others _ _ _ _, ?_, ?_, ?_, ?_, id⟩
      · intro c
        rw [start, go_self]
        exact List.Sublist.refl _
      · rw [start, go_self]
        exact List.Sublist.refl _
      · intro t ht
        refine ⟨ht, fun h => ?_⟩
        rw [start, Worker.owns, go_self]
        exact h
      · intro hs o hmem
        rw [start, go_self] at hmem
        rcases List.mem_cons.mp hmem with heq | hold
        · cases heq
        · exact Or.inr ⟨hs, o, hold⟩

variable [DecidableEq A]

theorem quiet_ret (w : W) (v : V) : Quiet s (ret s w v (s.worker w).stack) w := by
  cases hst : (s.worker w).stack with
  | nil => exact Quiet.same s w
  | cons f st =>
  -- A value that is returned pops its frame; only `inline` gives up a call.
  cases f with
  | call t k | exec t | run hs | init hs =>
      exact Quiet.replace hst (go_self _ _ _ _) (go_others _ _ _ _) rfl rfl (fun _ => rfl)
        (by nofun) id
  | inline t ra k =>
      refine Quiet.drop hst (go_self _ _ _ _) (go_others _ _ _ _) ?_ rfl
      intro t' ht'
      change (Function.update s.task t _ t').live = true at ht'
      by_cases heq : t' = t
      · subst heq
        rw [Function.update_self] at ht'
        cases ht'
      · rw [Function.update_of_ne heq] at ht'
        exact ⟨ht', fun hown => heq (Option.some.inj hown).symm⟩
  | catchUnwind k =>
      exact Quiet.drop hst (go_self _ _ _ _) (go_others _ _ _ _) (fun t ht => ⟨ht, by nofun⟩) rfl
  | _ => exact Quiet.same s w

omit [DecidableEq A] in
/-- A thread ends at its outermost frame. -/
theorem Quiet.ends {w : W} {f : Frame W A V} {st : List (Frame W A V)} {c : Control V}
    (hb : Based (s.worker w).stack) (hst : (s.worker w).stack = f :: st)
    (hf : f.base = true) : Quiet s (s.go w [] c) w := by
  rw [hst] at hb
  have hnil := hb.1 hf
  subst hnil
  refine Quiet.drop hst (go_self _ _ _ _) (go_others _ _ _ _) (fun t ht => ⟨ht, ?_⟩) rfl
  cases f with
  | seek loop r =>
      cases loop with
      | help t ra k => cases hf
      | _ => nofun
  | run hs | init hs | finish hs o | join hs o => nofun
  | _ => cases hf

/-- No branch panics, so unwinding leaves no call. -/
theorem quiet_unwind (h : Faithful w₀ out s l) (w : W) (hctl : (s.worker w).ctl = .unwind)
    (hb : Based (s.worker w).stack) : Quiet s (unwind s w (s.worker w).stack) w := by
  -- What a panic unwinds has neither a call's task nor a stolen one.
  have hnone : ∀ f st, (s.worker w).stack = f :: st → f.owns = none ∧ f.executes = none :=
    fun f st hst => h.owns_of_unwind w hctl hst
  have hfits := (h.ok w).fits
  cases hst : (s.worker w).stack with
  | nil => exact Quiet.same s w
  | cons f st =>
  simp only [Worker.Fits, hctl, hst] at hfits
  cases f with
  | catchUnwind k =>
      exact Quiet.drop hst (go_self _ _ _ _) (go_others _ _ _ _)
        (fun t ht => ⟨ht, by rintro ⟨⟩⟩) rfl
  | run hs => exact Quiet.ends hb hst rfl
  | init hs =>
      exact Quiet.replace hst (go_self _ _ _ _) (go_others _ _ _ _) rfl rfl (fun _ => rfl)
        (by simp) id
  | call t k | inline t ra k => cases (hnone _ st hst).1
  | exec t => cases (hnone _ st hst).2
  | _ => exact hfits.elim

omit [DecidableEq W] in
theorem live_modify (t t' : A) (f : StackTask V → StackTask V) (hf : ∀ x, (f x).live = x.live) :
    ((s.modify t f).task t').live = (s.task t').live := by
  by_cases heq : t' = t
  · subst heq
    simp only [State.modify, Function.update_self, hf]
  · simp only [State.modify, Function.update_of_ne heq]

theorem quiet_pop (h : Inv s) (w : W) {t : A} {ra : V} {k : V → V → Prog V}
    {st : List (Frame W A V)} (hst : (s.worker w).stack = .pop t ra k :: st) :
    Quiet s (advance s w (.pop t ra k :: st)) w := by
  have hfifo := (h.ok w).fifo
  rw [hst] at hfifo
  cases hd : (s.worker w).deque with
  | nil =>
      simp only [advance, hd]
      exact Quiet.replace hst (go_self _ _ _ _) (go_others _ _ _ _) rfl rfl (fun _ => rfl)
        (by simp) id
  | cons x d =>
      rw [hd] at hfifo
      obtain ⟨rfl, -⟩ := List.cons_prefix_cons.mp hfifo
      simp only [advance, hd, if_true]
      refine Quiet.replace hst (go_self _ _ _ _) ?_ rfl rfl (fun _ => rfl) (by simp) id
      intro w' hne
      simp [State.go, State.setDeque, hne]

theorem quiet_seek (h : Inv s) (w : W) {loop : Loop W A V} {r : Seek}
    {st : List (Frame W A V)} (hb : Based (s.worker w).stack)
    (hst : (s.worker w).stack = .seek loop r :: st) :
    Quiet s (advance s w (.seek loop r :: st)) w := by
  have hd := (h.ok w).deque_nil hst
  -- A turn to the next thing to look at leaves the times on the stack.
  have turn : ∀ r', Quiet s (s.go w (.seek loop r' :: st) .step) w := by
    intro r'
    refine Quiet.replace hst (go_self _ _ _ _) (go_others _ _ _ _) ?_ ?_ (fun _ => rfl)
      (by simp) id
    · cases loop with
      | _ => rfl
    · cases loop with
      | _ => rfl
  cases r with
  | check =>
      cases loop with
      | idle =>
          simp only [advance]
          split
          · exact Quiet.replace hst (go_self _ _ _ _) (go_others _ _ _ _) rfl rfl (fun _ => rfl)
              (by simp) id
          · exact turn _
      | help t ra k =>
          simp only [advance]
          split
          · exact Quiet.replace hst (go_self _ _ _ _) (go_others _ _ _ _) rfl rfl (fun _ => rfl)
              (by simp) id
          · exact turn _
      | drain | initDrain => exact turn _
  | pop =>
      simp only [advance, hd]
      exact turn _
  | steal =>
      cases loop with
      | idle | help => exact turn _
      | drain => exact Quiet.ends hb hst rfl
      | initDrain hs o =>
          exact Quiet.replace hst (go_self _ _ _ _) (go_others _ _ _ _) rfl rfl (fun _ => rfl)
            (by simp) id

theorem quiet_advance (h : Faithful w₀ out s l) (w : W) (hctl : (s.worker w).ctl = .step)
    (hb : Based (s.worker w).stack) : Quiet s (advance s w (s.worker w).stack) w := by
  have hfits := (h.ok w).fits
  -- Each frame goes on as one of the same call, or is left.
  cases hst : (s.worker w).stack with
  | nil => exact Quiet.same s w
  | cons f st =>
  simp only [Worker.Fits, hctl, hst] at hfits
  cases f with
  | pop t ra k => exact quiet_pop h.inv w hst
  | seek loop r => exact quiet_seek h.inv w hb hst
  | inline t ra k | exec t =>
      simp only [advance]
      split
      · refine Quiet.replace hst (go_self _ _ _ _) (go_others _ _ _ _) rfl rfl ?_ (by simp) id
        exact fun t' => live_modify t t' (fun x => { x with func := none }) fun _ => rfl
      · exact Quiet.replace hst (go_self _ _ _ _) (go_others _ _ _ _) rfl rfl (fun _ => rfl)
          (by simp) id
  | publish t r =>
      refine Quiet.replace hst (go_self _ _ _ _) (go_others _ _ _ _) rfl rfl ?_ (by simp) id
      exact fun t' => live_modify t t' (fun x => { x with result := some r }) fun _ => rfl
  | setLatch t =>
      refine Quiet.drop hst (go_self _ _ _ _) (go_others _ _ _ _) ?_ rfl
      intro t' ht'
      refine ⟨?_, by rintro ⟨⟩⟩
      rw [← live_modify t t' (fun x => { x with latch := true }) fun _ => rfl]
      exact ht'
  | take t ra k =>
      obtain ⟨-, rb, hres, -⟩ := h.taken hctl hst
      simp only [advance, hres]
      refine Quiet.drop hst (go_self _ _ _ _) (go_others _ _ _ _) ?_ rfl
      intro t' ht'
      by_cases heq : t' = t
      · subst heq
        simp [State.go, State.leave, State.modify] at ht'
      · refine ⟨?_, fun hown => heq (Option.some.inj hown).symm⟩
        simpa [State.go, State.leave, State.modify, heq] using ht'
  | finish hs o =>
      exact Quiet.replace hst (go_self _ _ _ _) (go_others _ _ _ _) rfl rfl (fun _ => rfl)
        (fun _ _ _ => Or.inl rfl) (fun _ => rfl)
  | join hs o =>
      cases hs with
      | nil => exact Quiet.ends hb hst rfl
      | cons b hs =>
          simp only [advance]
          split
          all_goals
            exact Quiet.replace hst (go_self _ _ _ _) (go_others _ _ _ _) rfl rfl
              (fun _ => rfl) (fun _ _ _ => Or.inr ⟨_, _, rfl⟩) id
  | _ => exact hfits.elim

/-- A step starts no call and no execution. -/
theorem quiet_step (h : Faithful w₀ out s l) (w : W) (hb : Based (s.worker w).stack) :
    Quiet s (next s (.step w)) w := by
  simp only [next, step]
  cases hctl : (s.worker w).ctl with
  | run p => exact quiet_start w p
  | ret v => exact quiet_ret w v
  | unwind => exact quiet_unwind h w hctl hb
  | step => exact quiet_advance h w hctl hb
  | exited | dead => exact Quiet.same s w

/-- What holds of the engine, its history and its times. -/
structure Ordered (w₀ : W) (out : Option V) (s : State W A V) (l : Log A V) (c : Clock A) :
    Prop where
  faithful : Faithful w₀ out s l
  waits : Waits s
  aged : Aged s c
  joined : Joined s
  owned : Owned s

variable {c c' : Clock A}

omit [DecidableEq A] in
theorem Aged.quiet {w : W} (h : Aged s c) (hq : Quiet s s' w) : Aged s' c := by
  refine ⟨?_, ?_, h.past⟩
  · intro w'
    by_cases hw : w' = w
    · subst hw
      exact (h.stack w').sublist (hq.times c)
    · rw [hq.others w' hw]
      exact h.stack w'
  · intro w' t ht
    by_cases hw : w' = w
    · subst hw
      exact h.exec w' t (hq.executes.subset ht)
    · rw [hq.others w' hw] at ht
      exact h.exec w' t ht

omit [DecidableEq A] in
theorem Joined.quiet {w : W} (h : Joined s) (hq : Quiet s s' w) : Joined s' := by
  intro w' hs o hmem
  by_cases hw : w' = w
  · subst hw
    rcases hq.joins hs o hmem with hfin | ⟨hs', o', hold⟩
    · exact hfin
    · exact hq.finished (h w' hs' o' hold)
  · rw [hq.others w' hw] at hmem
    exact hq.finished (h w' hs o hmem)

omit [DecidableEq A] in
theorem Owned.quiet {w : W} (h : Owned s) (hq : Quiet s s' w) : Owned s' := by
  intro t ht
  obtain ⟨hlive, hown⟩ := hq.owns t ht
  obtain ⟨w', hw'⟩ := h t hlive
  by_cases hw : w' = w
  · subst hw
    exact ⟨w', hown hw'⟩
  · refine ⟨w', ?_⟩
    rw [Worker.owns, hq.others w' hw]
    exact hw'

omit [DecidableEq A] [DecidableEq W] in
/-- The times of frames that are neither begun nor started now are as they
    were. -/
theorem time_congr {st : List (Frame W A V)}
    (hborn : ∀ t ∈ st.filterMap Frame.owns, c'.born t = c.born t)
    (hstart : ∀ t ∈ st.filterMap Frame.executes, c'.start t = c.start t) :
    st.filterMap (Frame.time c') = st.filterMap (Frame.time c) := by
  refine List.filterMap_congr fun f hf => ?_
  unfold Frame.time
  cases hx : f.executes with
  | some t => exact congrArg some (hstart t (List.mem_filterMap.mpr ⟨f, hf, hx⟩))
  | none =>
      cases ho : f.owns with
      | none => rfl
      | some t => simp only [Option.map_some, hborn t (List.mem_filterMap.mpr ⟨f, hf, ho⟩)]

omit [DecidableEq W] [DecidableEq A] in
theorem Aged.lt_now {w : W} (h : Aged s c) {n : ℕ}
    (hn : n ∈ (s.worker w).stack.filterMap (Frame.time c)) : n < c.now := by
  rcases List.mem_filterMap.mp hn with ⟨f, -, hf⟩
  unfold Frame.time at hf
  -- The time of a frame is that of the entry it executes, or of its own call.
  cases hx : f.executes with
  | some t =>
      rw [hx] at hf
      cases hf
      exact (h.past t).2
  | none =>
      rw [hx] at hf
      cases ho : f.owns with
      | none =>
          rw [ho] at hf
          cases hf
      | some t =>
          rw [ho] at hf
          cases hf
          exact (h.past t).1

/-- A call begins now. -/
theorem ordered_call (h : Ordered w₀ out s l c) (w : W) (t : A)
    (hg : enabled s (.call w t) = true) (hf : Faithful w₀ out (call s w t) (l.add s (.call w t)))
    (hw : Waits (call s w t)) :
    ∃ c', Ordered w₀ out (call s w t) (l.add s (.call w t)) c' := by
  simp only [enabled, Bool.and_eq_true] at hg
  have hcan := hg.2
  unfold canCall at hcan
  split at hcan
  case h_2 => cases hcan
  rename_i a b k hctl
  rw [Bool.not_eq_true'] at hcan
  have hnone := h.faithful.inv.unmentioned hcan
  have hcall : call s w t = ((s.modify t fun _ => .new b).setDeque w
      (t :: (s.worker w).deque)).go w (.call t k :: (s.worker w).stack) (.run a) := by
    simp only [call, hctl]
  have hself : ((call s w t).worker w).stack = .call t k :: (s.worker w).stack := by
    rw [hcall, go_self]
  have hothers : ∀ w', w' ≠ w → ((call s w t).worker w').stack = (s.worker w').stack := by
    intro w' hne
    rw [hcall, go_others _ _ _ _ w' hne]
    simp [State.setDeque, State.modify, hne]
  have hlive : ∀ t', t' ≠ t → ((call s w t).task t').live = (s.task t').live := by
    intro t' hne
    rw [hcall]
    simp [State.go, State.setDeque, State.modify, hne]
  -- The new task is mentioned nowhere, so no frame executes it.
  have hexec : ∀ w', t ∉ (s.worker w').stack.filterMap Frame.executes := by
    intro w' hmem
    have hl := h.faithful.inv.safe w' t (List.mem_append_right _ hmem)
    rw [hcan] at hl
    cases hl
  -- The call is born now, which is later than everything on the stacks.
  let c' : Clock A := { c with born := Function.update c.born t c.now, now := c.now + 1 }
  have htime : ∀ w', (s.worker w').stack.filterMap (Frame.time c') =
      (s.worker w').stack.filterMap (Frame.time c) := by
    intro w'
    refine time_congr ?_ fun _ _ => rfl
    intro t' ht'
    have hne : t' ≠ t := fun heq => (hnone w').2.1 (heq ▸ ht')
    exact Function.update_of_ne hne _ _
  refine ⟨c', hf, hw, ⟨?_, ?_, ?_⟩, ?_, ?_⟩
  · intro w'
    by_cases hww : w' = w
    · subst hww
      rw [hself, List.filterMap_cons]
      change (Function.update c.born t c.now t :: _).Pairwise _
      rw [Function.update_self, htime]
      exact List.pairwise_cons.mpr ⟨fun n hn => h.aged.lt_now hn, h.aged.stack w'⟩
    · rw [hothers w' hww, htime]
      exact h.aged.stack w'
  · intro w' t' ht'
    have hold : t' ∈ (s.worker w').stack.filterMap Frame.executes := by
      by_cases hww : w' = w
      · subst hww
        rw [hself] at ht'
        exact ht'
      · rwa [hothers w' hww] at ht'
    have hne : t' ≠ t := fun heq => hexec w' (heq ▸ hold)
    change Function.update c.born t c.now t' < c.start t'
    rw [Function.update_of_ne hne]
    exact h.aged.exec w' t' hold
  · intro t'
    have hpast := h.aged.past t'
    change Function.update c.born t c.now t' < c.now + 1 ∧ c.start t' < c.now + 1
    by_cases heq : t' = t
    · rw [heq, Function.update_self]
      exact ⟨Nat.lt_succ_self _, Nat.lt_succ_of_lt (h.aged.past t).2⟩
    · rw [Function.update_of_ne heq]
      omega
  · intro w' hs o hmem
    have hfin : (call s w t).finished = s.finished := by
      rw [hcall]
      rfl
    rw [hfin]
    by_cases hww : w' = w
    · subst hww
      rw [hself] at hmem
      rcases List.mem_cons.mp hmem with heq | hold
      · cases heq
      · exact h.joined w' hs o hold
    · rw [hothers w' hww] at hmem
      exact h.joined w' hs o hmem
  · intro t' ht'
    by_cases heq : t' = t
    · refine ⟨w, ?_⟩
      rw [Worker.owns, hself, heq]
      exact List.mem_cons_self
    · rw [hlive t' heq] at ht'
      obtain ⟨w', hw'⟩ := h.owned t' ht'
      refine ⟨w', ?_⟩
      by_cases hww : w' = w
      · subst hww
        rw [Worker.owns, hself]
        exact List.mem_cons_of_mem _ hw'
      · rw [Worker.owns, hothers w' hww]
        exact hw'

/-- A thief starts a branch now. -/
theorem ordered_steal (h : Ordered w₀ out s l c) (w v : W)
    (hg : enabled s (.steal w v) = true)
    (hf : Faithful w₀ out (steal s w v) (l.add s (.steal w v))) (hw : Waits (steal s w v)) :
    ∃ c', Ordered w₀ out (steal s w v) (l.add s (.steal w v)) c' := by
  simp only [enabled, Bool.and_eq_true] at hg
  have hcan := hg.2
  unfold canSteal at hcan
  split at hcan
  case h_2 => cases hcan
  rename_i loop st hctl hst
  simp only [Bool.and_eq_true, decide_eq_true_eq, Bool.not_eq_true'] at hcan
  -- The thief takes the oldest entry.
  obtain ⟨d, x, hd⟩ : ∃ d x, (s.worker v).deque = d ++ [x] := by
    rcases List.eq_nil_or_concat (s.worker v).deque with hnil | ⟨d, x, hd⟩
    · rw [hnil] at hcan
      cases hcan.2
    · exact ⟨d, x, by simpa using hd⟩
  have hsteal : steal s w v =
      (s.setDeque v d).go w (.exec x :: .seek loop .check :: st) .step := by
    simp only [steal, hst, hd, List.getLast?_concat, List.dropLast_concat]
  have hself : ((steal s w v).worker w).stack = .exec x :: .seek loop .check :: st := by
    rw [hsteal, go_self]
  have hothers : ∀ w', w' ≠ w → ((steal s w v).worker w').stack = (s.worker w').stack := by
    intro w' hne
    rw [hsteal, go_others _ _ _ _ w' hne]
    by_cases hv : w' = v
    · subst hv
      simp only [State.setDeque, Function.update_self]
    · simp only [State.setDeque, Function.update_of_ne hv]
  -- Nobody executes the task yet.
  have hexec : ∀ w', x ∉ (s.worker w').stack.filterMap Frame.executes := by
    intro w' hmem
    have hx : x ∈ (s.worker v).deque := by rw [hd]; simp
    have hww := h.faithful.inv.refs_unique w' v x (List.mem_append_right _ hmem)
      (List.mem_append_left _ hx)
    subst hww
    have hnd := (h.faithful.inv.ok w').refs_nodup
    rw [Worker.refs, List.nodup_append] at hnd
    exact hnd.2.2 x hx x hmem rfl
  -- The branch starts now, which is later than its call.
  let c' : Clock A := { c with start := Function.update c.start x c.now, now := c.now + 1 }
  have htime : ∀ w', (s.worker w').stack.filterMap (Frame.time c') =
      (s.worker w').stack.filterMap (Frame.time c) := by
    intro w'
    refine time_congr (fun _ _ => rfl) ?_
    intro t' ht'
    have hne : t' ≠ x := fun heq => hexec w' (heq ▸ ht')
    exact Function.update_of_ne hne _ _
  -- The stack below is that of a worker at its loop.
  have hseek : ∀ c : Clock A, (Frame.seek loop .check :: st).filterMap (Frame.time c) =
      (s.worker w).stack.filterMap (Frame.time c) := by
    intro c
    rw [hst]
    cases loop with
    | _ => rfl
  have howns : (Frame.seek loop .check :: st).filterMap Frame.owns = (s.worker w).owns := by
    rw [Worker.owns, hst]
    cases loop with
    | _ => rfl
  refine ⟨c', hf, hw, ⟨?_, ?_, ?_⟩, ?_, ?_⟩
  · intro w'
    by_cases hww : w' = w
    · subst hww
      rw [hself, List.filterMap_cons]
      change (Function.update c.start x c.now x :: _).Pairwise _
      rw [Function.update_self, hseek, htime]
      exact List.pairwise_cons.mpr ⟨fun n hn => h.aged.lt_now hn, h.aged.stack w'⟩
    · rw [hothers w' hww, htime]
      exact h.aged.stack w'
  · intro w' t' ht'
    have hcases : t' = x ∨ t' ∈ (s.worker w').stack.filterMap Frame.executes := by
      by_cases hww : w' = w
      · subst hww
        rw [hself] at ht'
        rw [hst]
        exact List.mem_cons.mp ht'
      · rw [hothers w' hww] at ht'
        exact Or.inr ht'
    change c.born t' < Function.update c.start x c.now t'
    rcases hcases with rfl | hold
    · rw [Function.update_self]
      exact (h.aged.past t').1
    · rw [Function.update_of_ne fun heq : t' = x => hexec w' (heq ▸ hold)]
      exact h.aged.exec w' t' hold
  · intro t'
    have hpast := h.aged.past t'
    change c.born t' < c.now + 1 ∧ Function.update c.start x c.now t' < c.now + 1
    by_cases heq : t' = x
    · rw [heq, Function.update_self]
      exact ⟨Nat.lt_succ_of_lt (h.aged.past x).1, Nat.lt_succ_self _⟩
    · rw [Function.update_of_ne heq]
      omega
  · intro w' hs o hmem
    have hfin : (steal s w v).finished = s.finished := by
      rw [hsteal]
      rfl
    rw [hfin]
    by_cases hww : w' = w
    · subst hww
      rw [hself] at hmem
      rcases List.mem_cons.mp hmem with heq | hmem'
      · cases heq
      · rcases List.mem_cons.mp hmem' with heq | hold
        · cases heq
        · exact h.joined w' hs o (hst ▸ List.mem_cons_of_mem _ hold)
    · rw [hothers w' hww] at hmem
      exact h.joined w' hs o hmem
  · intro t' ht'
    rw [hsteal] at ht'
    obtain ⟨w', hw'⟩ := h.owned t' ht'
    refine ⟨w', ?_⟩
    by_cases hww : w' = w
    · subst hww
      rw [Worker.owns, hself]
      change t' ∈ (Frame.seek loop .check :: st).filterMap Frame.owns
      rw [howns]
      exact hw'
    · rw [Worker.owns, hothers w' hww]
      exact hw'

omit [DecidableEq A] [DecidableEq W] in
theorem branchReturns_of_faithful (h : Faithful w₀ out s l) (a : Action W A) :
    BranchReturns s a := by
  unfold BranchReturns
  split
  · split
    · rename_i hctl hst
      cases (h.owns_of_unwind _ hctl hst).2
    · trivial
  · trivial

theorem ordered_next (h : Ordered w₀ out s l c) (a : Action W A) (hg : enabled s a = true) :
    ∃ c', Ordered w₀ out (next s a) (l.add s a) c' := by
  have hf := faithful_next h.faithful a hg
  have hw := waits_next h.waits a hg (branchReturns_of_faithful h.faithful a)
  cases a with
  | step w =>
      have hq := quiet_step h.faithful w (h.waits.ok w).based
      exact ⟨c, hf, hw, h.aged.quiet hq, h.joined.quiet hq, h.owned.quiet hq⟩
  | call w t => exact ordered_call h w t hg hf hw
  | steal w v => exact ordered_steal h w v hg hf hw

omit [DecidableEq A] in
theorem ordered_started {handles : List W} {p : Prog V} (hs : Started s w₀ handles p)
    (hp : p.eval = some out) : Ordered w₀ out s (Log.empty : Log A V)
    ⟨fun _ => 0, fun _ => 0, 1⟩ := by
  -- Every worker has one frame, which belongs to no call.
  have hstack : ∀ w, ∃ f, (s.worker w).stack = [f] ∧ f.owns = none ∧ f.executes = none ∧
      ∀ hs o, f ≠ .join hs o := by
    intro w
    by_cases hw : w = w₀
    · subst hw
      rcases hs.root with hr | hr
      all_goals
        rw [hr]
        exact ⟨_, rfl, rfl, rfl, by nofun⟩
    · rw [hs.idle w hw]
      exact ⟨_, rfl, rfl, rfl, by nofun⟩
  refine ⟨faithful_started hs hp, waits_started hs, ⟨?_, ?_, ?_⟩, ?_, ?_⟩
  · intro w
    obtain ⟨f, hf, ho, hx, -⟩ := hstack w
    have htime : f.time (⟨fun _ => 0, fun _ => 0, 1⟩ : Clock A) = none := by
      simp only [Frame.time, hx, ho, Option.map_none]
    rw [hf, List.filterMap_cons, htime]
    exact List.Pairwise.nil
  · intro w t ht
    obtain ⟨f, hf, -, hx, -⟩ := hstack w
    rw [hf, List.filterMap_cons, hx] at ht
    exact absurd ht List.not_mem_nil
  · exact fun t => ⟨Nat.zero_lt_one, Nat.zero_lt_one⟩
  · intro w hs' o hmem
    obtain ⟨f, hf, -, -, hj⟩ := hstack w
    rw [hf, List.mem_singleton] at hmem
    exact absurd hmem.symm (hj hs' o)
  · intro t ht
    rw [hs.fresh t] at ht
    cases ht

end

end Scoped

end Cmpth

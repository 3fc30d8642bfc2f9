import Cmpth.Core.System

/-!
# Yield Requests of Nested Polls

The flag `yield_requested` of one worker, and the calls of `run_async_poll` on its
stack.

`yield_now` sets the flag, and the call of `run_async_poll` that polls the task
takes it when `poll_fn` returns: if the task is to be queued again, a set flag sends
it behind what is queued already. The marker `polling_async` is a local of each call,
which puts back what it has found. The flag is not. A task that has asked to yield
may go on to poll a `JoinHandle`, which pops the child and polls it in a call of its
own; that inner call takes the request, and the outer one finds none.

A panic in the destructor of a future leaves `run_async_poll` by unwinding, and the
flag with it, to whatever is polled next.

## Main definitions

* `Frame`: One call of `run_async_poll`.
* `system`: The calls on a worker's stack, its marker and its flag.
* `Belongs`: Requests are taken by the polls that made them, and none is lost.
* `calm`: No call begins and none unwinds while the flag is set.

## Theorems

* `Inv.belongs`, `inv_start`: The invariant, and what it gives.
* `Base.requeue`, `Inv.requeue`, `Base.retire`, `Inv.retire`, `Base.transfer`, `Base.ask`,
  `Base.unwind`: The steps, one by one.
* `seen_take`, `rooted_tail`, `Base.unserved_eq`: What the flag stands for.
* `taken_take`: The innermost poll takes what is its own.
* `asking`: A request is made in a poll.
* `base_next`: Whatever the step, the flag stands for the requests that nobody has taken.
* `inv_next`: Steps that meet the condition leave a request to the innermost poll.
* `bad_take`, `bad_run`, `calm_of_belongs`: A request that is taken by another poll.
* `bad_next`: What another poll is going to take, no later step gives back.
* `bad_of_enter`: A call that begins under a set flag is in for somebody else's request.
* `not_belongs_of_bad`: When nothing is polled any more, what was going to be taken has been.
* `belongs_iff`: The runs whose requests stay with their polls.
* `belongs_nested`: A child that is polled while nothing is asked for.
* `inner_takes`: A child takes the request of the task that polls it.
-/

namespace Cmpth

namespace Worker

namespace Yielding

/-- One call of `run_async_poll`: the task it polls, and the marker it has found.
    Polls are numbered, a new one for each turn of the loop. -/
structure Frame (A : Type*) where
  desc : A
  prev : Option A
  poll : ℕ
  deriving DecidableEq, Repr

/-- What `take_yield_requested` gave at the end of a poll, and the polls whose
    requests that was. -/
structure Take where
  poll : ℕ
  flag : Bool
  requests : List ℕ
  deriving DecidableEq, Repr

/-- One worker: `polling_async` and `yield_requested`, the calls on its stack,
    innermost first, the tasks it has queued again, and whether its thread still
    runs. The rest is history: the number of polls so far, the polls that made the
    requests nobody has taken yet, and what was taken. -/
structure State (A : Type*) where
  polling : Option A
  yieldRequested : Bool
  frames : List (Frame A)
  deferred : List A
  pushed : List A
  alive : Bool
  polls : ℕ
  unserved : List ℕ
  takes : List Take
  deriving DecidableEq, Repr

/-- The calls of `run_async_poll`, and the requests that are made inside them. -/
inductive Action (A : Type*) where
  /-- `run_async_poll`, from the worker's loop or from `try_reclaim_and_run`. -/
  | enter (a : A)
  /-- The first poll of the future of `yield_now`. -/
  | yieldNow
  /-- `poll_fn` returns `Ready`. -/
  | ready
  /-- It returns `Pending`; no wake has come meanwhile, or one has. -/
  | pending (parked : Bool)
  /-- It returns `ReadyAndContinue`. -/
  | transfer (a : A)
  /-- It panics, in a destructor. -/
  | unwind
  deriving DecidableEq, Repr

section

variable {A : Type*} [DecidableEq A]

namespace State

/-- `yield_now`: the flag is only set inside a poll. -/
def yieldNow (s : State A) : State A :=
  if s.polling.isSome then
    { s with
      yieldRequested := true
      unserved := s.unserved ++ (s.frames.head?.map Frame.poll).toList }
  else s

/-- `take_yield_requested`, when the poll of `f` is over. -/
def takeYieldRequested (s : State A) (f : Frame A) : State A :=
  { s with
    yieldRequested := false
    unserved := []
    takes := ⟨f.poll, s.yieldRequested, s.unserved⟩ :: s.takes }

/-- The call returns: the marker is put back. -/
def leave (s : State A) (f : Frame A) (fs : List (Frame A)) : State A :=
  { s with polling := f.prev, frames := fs }

/-- A task that was woken during its poll is queued again. -/
def requeue (s : State A) (a : A) (yieldRequested : Bool) : State A :=
  if yieldRequested then { s with deferred := a :: s.deferred }
  else { s with pushed := a :: s.pushed }

end State

/-- When an action is enabled. A task that is queued, or that has parked, is not
    being polled. -/
def guard (s : State A) : Action A → Prop
  | .enter a => s.alive = true ∧ ∀ f ∈ s.frames, f.desc ≠ a
  | .yieldNow => s.alive = true
  | .transfer a => s.frames ≠ [] ∧ ∀ f ∈ s.frames, f.desc ≠ a
  | .ready | .pending _ | .unwind => s.frames ≠ []

instance (s : State A) : (a : Action A) → Decidable (guard s a)
  | .enter a => inferInstanceAs (Decidable (s.alive = true ∧ ∀ f ∈ s.frames, f.desc ≠ a))
  | .yieldNow => inferInstanceAs (Decidable (s.alive = true))
  | .transfer a => inferInstanceAs (Decidable (s.frames ≠ [] ∧ ∀ f ∈ s.frames, f.desc ≠ a))
  | .ready => inferInstanceAs (Decidable (s.frames ≠ []))
  | .pending _ => inferInstanceAs (Decidable (s.frames ≠ []))
  | .unwind => inferInstanceAs (Decidable (s.frames ≠ []))

/-- The state an action leads to. A panic ends the worker's thread unless an outer
    poll is there to catch it. -/
def next (s : State A) : Action A → State A
  | .enter a =>
      { s with
        polling := some a
        frames := ⟨a, s.polling, s.polls⟩ :: s.frames
        polls := s.polls + 1 }
  | .yieldNow => s.yieldNow
  | .ready =>
      match s.frames with
      | [] => s
      | f :: fs => (s.takeYieldRequested f).leave f fs
  | .pending parked =>
      match s.frames with
      | [] => s
      | f :: fs =>
          let s' := (s.takeYieldRequested f).leave f fs
          if parked then s' else s'.requeue f.desc s.yieldRequested
  | .transfer a =>
      match s.frames with
      | [] => s
      | f :: fs =>
          { s.takeYieldRequested f with
            polling := some a
            frames := ⟨a, f.prev, s.polls⟩ :: fs
            polls := s.polls + 1 }
  | .unwind =>
      match s.frames with
      | [] => s
      | _ :: fs => { s with frames := fs, alive := !fs.isEmpty }

/-- A worker that polls nothing. -/
def start : State A where
  polling := none
  yieldRequested := false
  frames := []
  deferred := []
  pushed := []
  alive := true
  polls := 0
  unserved := []
  takes := []

/-- The worker as a guarded transition system. -/
def system : System (State A) (Action A) where
  init s := s = start
  guard := guard
  next := next

instance (s : State A) (a : Action A) : Decidable ((system).guard s a) :=
  inferInstanceAs (Decidable (guard s a))

/-- The flag was set if and only if somebody had asked, and it was the poll itself
    that had. -/
def Take.Own (t : Take) : Prop :=
  (t.flag = true ↔ t.requests ≠ []) ∧ ∀ r ∈ t.requests, r = t.poll

instance (t : Take) : Decidable t.Own :=
  inferInstanceAs (Decidable (_ ∧ _))

/-- Each request is taken by the poll that made it, and until then that poll is on
    the stack. -/
def Belongs (s : State A) : Prop :=
  (∀ t ∈ s.takes, t.Own) ∧ ∀ r ∈ s.unserved, ∃ f ∈ s.frames, f.poll = r

instance (s : State A) : Decidable (Belongs s) :=
  inferInstanceAs (Decidable (_ ∧ _))

/-- No call begins, and none unwinds, while the flag is set. -/
def calm (s : State A) : Action A → Prop
  | .enter _ | .unwind => s.yieldRequested = false
  | _ => True

instance (s : State A) : (a : Action A) → Decidable (calm s a)
  | .enter _ => inferInstanceAs (Decidable (s.yieldRequested = false))
  | .unwind => inferInstanceAs (Decidable (s.yieldRequested = false))
  | .yieldNow => isTrue trivial
  | .ready => isTrue trivial
  | .pending _ => isTrue trivial
  | .transfer _ => isTrue trivial

end

section

variable {A : Type*} {s : State A} {f : Frame A} {fs : List (Frame A)} {a : A} {b : Bool}

/-- The invariant of every run. The outermost call has found no marker, so that there
    is none outside of polls. -/
structure Base (s : State A) : Prop where
  flag : s.yieldRequested = true ↔ s.unserved ≠ []
  seen : ∀ t ∈ s.takes, t.flag = true ↔ t.requests ≠ []
  polled : ∀ f ∈ s.frames, f.poll < s.polls
  asked : ∀ r ∈ s.unserved, r < s.polls
  rooted : ∀ f, s.frames.getLast? = some f → f.prev = none
  outside : s.frames = [] → s.alive = true → s.polling = none

/-- The requests nobody has taken are the innermost poll's, and every poll has taken
    its own. -/
structure Inv (s : State A) : Prop extends Base s where
  own : ∀ r ∈ s.unserved, s.frames.head?.map Frame.poll = some r
  taken : ∀ t ∈ s.takes, ∀ r ∈ t.requests, r = t.poll

theorem Inv.belongs (h : Inv s) : Belongs s := by
  refine ⟨fun t ht => ⟨h.seen t ht, h.taken t ht⟩, fun r hr => ?_⟩
  have hown := h.own r hr
  cases hf : s.frames with
  | nil =>
      rw [hf] at hown
      cases hown
  | cons f fs =>
      rw [hf] at hown
      exact ⟨f, List.mem_cons_self, Option.some.inj hown⟩

theorem Base.requeue (h : Base s) : Base (s.requeue a b) := by
  cases b <;> exact ⟨h.flag, h.seen, h.polled, h.asked, h.rooted, h.outside⟩

theorem Inv.requeue (h : Inv s) : Inv (s.requeue a b) := by
  cases b <;> exact ⟨h.toBase.requeue, h.own, h.taken⟩

theorem seen_take (h : Base s) :
    ∀ t ∈ (s.takeYieldRequested f).takes, t.flag = true ↔ t.requests ≠ [] := by
  intro t ht
  rcases List.mem_cons.mp ht with rfl | ht
  · exact h.flag
  · exact h.seen t ht

/-- The innermost poll takes what is its own. -/
theorem taken_take (h : Inv s) (hf : s.frames = f :: fs) :
    ∀ t ∈ (s.takeYieldRequested f).takes, ∀ r ∈ t.requests, r = t.poll := by
  intro t ht r hr
  rcases List.mem_cons.mp ht with rfl | ht
  · have hown := h.own r hr
    rw [hf] at hown
    exact (Option.some.inj hown).symm
  · exact h.taken t ht r hr

theorem rooted_tail (h : Base s) (hf : s.frames = f :: fs) {g : Frame A}
    (hg : fs.getLast? = some g) : g.prev = none := by
  refine h.rooted g ?_
  rw [hf, List.getLast?_cons, hg]
  rfl

theorem Base.retire (h : Base s) (hf : s.frames = f :: fs) :
    Base ((s.takeYieldRequested f).leave f fs) where
  flag := by simp [State.leave, State.takeYieldRequested]
  seen := seen_take h
  polled g hg := h.polled g (hf ▸ List.mem_cons_of_mem f hg)
  asked r hr := absurd hr List.not_mem_nil
  rooted g hg := rooted_tail h hf hg
  outside := by
    intro hfs _
    refine h.rooted f ?_
    change fs = [] at hfs
    rw [hf, hfs]
    rfl

theorem Inv.retire (h : Inv s) (hf : s.frames = f :: fs) :
    Inv ((s.takeYieldRequested f).leave f fs) where
  toBase := h.toBase.retire hf
  own _ hr := absurd hr List.not_mem_nil
  taken := taken_take h hf

theorem Base.transfer (h : Base s) (hf : s.frames = f :: fs) : Base (next s (.transfer a)) := by
  simp only [next, hf]
  constructor
  case flag => simp [State.takeYieldRequested]
  case seen => exact seen_take h
  case polled =>
    intro g hg
    rcases List.mem_cons.mp hg with rfl | hg
    · exact Nat.lt_succ_self s.polls
    · exact Nat.lt_succ_of_lt (h.polled g (hf ▸ List.mem_cons_of_mem f hg))
  case asked => exact fun r hr => absurd hr List.not_mem_nil
  case rooted =>
    intro g hg
    -- The frame below is asked next, or the worker is back in its loop.
    cases fs with
    | nil =>
        cases hg
        exact h.rooted f (by rw [hf]; rfl)
    | cons e es => exact rooted_tail h hf (by simpa using hg)
  case outside => exact fun hne => absurd hne (List.cons_ne_nil _ _)

/-- A request is made in a poll. -/
theorem asking (h : Base s) (hg : s.alive = true) (hp : s.polling.isSome = true) :
    ∃ f fs, s.frames = f :: fs := by
  cases hf : s.frames with
  | nil =>
      rw [h.outside hf hg] at hp
      cases hp
  | cons f fs => exact ⟨f, fs, rfl⟩

theorem Base.ask (h : Base s) (hg : s.alive = true) : Base s.yieldNow := by
  unfold State.yieldNow
  split
  · next hp =>
      rcases asking h hg hp with ⟨f, fs, hf⟩
      have hnew : (s.frames.head?.map Frame.poll).toList = [f.poll] := by
        rw [hf]
        rfl
      rw [hnew]
      refine ⟨iff_of_true rfl (by simp), h.seen, h.polled, fun r hr => ?_, h.rooted, h.outside⟩
      rcases List.mem_append.mp hr with hr | hr
      · exact h.asked r hr
      · rw [List.mem_singleton.mp hr]
        exact h.polled f (hf ▸ List.mem_cons_self)
  · exact h

theorem Base.unwind (h : Base s) (hf : s.frames = f :: fs) : Base (next s .unwind) := by
  simp only [next, hf]
  refine ⟨h.flag, h.seen, fun g hg => ?_, h.asked, fun g hg => rooted_tail h hf hg, ?_⟩
  · exact h.polled g (hf ▸ List.mem_cons_of_mem f hg)
  · intro hfs halive
    change fs = [] at hfs
    rw [hfs] at halive
    cases halive

/-- Whatever the step, the flag stands for the requests that nobody has taken. -/
theorem base_next [DecidableEq A] {a : Action A} (h : Base s) (hg : guard s a) :
    Base (next s a) := by
  -- Requests set the flag, and whoever takes them lowers it.
  cases a with
  | enter a =>
      constructor
      case flag => exact h.flag
      case seen => exact h.seen
      case polled =>
        intro g hmem
        rcases List.mem_cons.mp hmem with rfl | hmem
        · exact Nat.lt_succ_self s.polls
        · exact Nat.lt_succ_of_lt (h.polled g hmem)
      case asked => exact fun r hr => Nat.lt_succ_of_lt (h.asked r hr)
      case rooted =>
        intro g hlast
        change (_ :: s.frames).getLast? = some g at hlast
        cases hf : s.frames with
        | nil =>
            rw [hf] at hlast
            cases hlast
            exact h.outside hf hg.1
        | cons e es =>
            rw [hf] at hlast
            exact h.rooted g (by simpa [hf] using hlast)
      case outside => exact fun hne => absurd hne (List.cons_ne_nil _ _)
  | yieldNow => exact h.ask hg
  | ready =>
      rcases List.exists_cons_of_ne_nil hg with ⟨f, fs, hf⟩
      simp only [next, hf]
      exact h.retire hf
  | pending parked =>
      rcases List.exists_cons_of_ne_nil hg with ⟨f, fs, hf⟩
      simp only [next, hf]
      split
      · exact h.retire hf
      · exact (h.retire hf).requeue
  | transfer a =>
      rcases List.exists_cons_of_ne_nil hg.1 with ⟨f, fs, hf⟩
      exact h.transfer hf
  | unwind =>
      rcases List.exists_cons_of_ne_nil hg with ⟨f, fs, hf⟩
      exact h.unwind hf

theorem Base.unserved_eq (h : Base s) (hc : s.yieldRequested = false) : s.unserved = [] := by
  by_contra hne
  rw [h.flag.mpr hne] at hc
  cases hc

/-- With the flag down when calls begin and unwind, a request stays with the innermost
    poll until that is over. -/
theorem inv_next [DecidableEq A] {a : Action A} (h : Inv s) (hg : guard s a) (hc : calm s a) :
    Inv (next s a) := by
  -- What is left to see is whose the requests are.
  have hbase := base_next h.toBase hg
  cases a with
  | enter a =>
      have hnone : s.unserved = [] := h.unserved_eq hc
      refine ⟨hbase, fun r hr => ?_, h.taken⟩
      change r ∈ s.unserved at hr
      rw [hnone] at hr
      cases hr
  | yieldNow =>
      refine ⟨hbase, ?_, ?_⟩
      · simp only [next, State.yieldNow]
        split
        · next hp =>
            rcases asking h.toBase hg hp with ⟨f, fs, hf⟩
            intro r hr
            rcases List.mem_append.mp hr with hr | hr
            · exact h.own r hr
            · rw [hf] at hr ⊢
              exact congrArg some (List.mem_singleton.mp hr).symm
        · exact h.own
      · simp only [next, State.yieldNow]
        split <;> exact h.taken
  | ready =>
      rcases List.exists_cons_of_ne_nil hg with ⟨f, fs, hf⟩
      simp only [next, hf]
      exact h.retire hf
  | pending parked =>
      rcases List.exists_cons_of_ne_nil hg with ⟨f, fs, hf⟩
      simp only [next, hf]
      split
      · exact h.retire hf
      · exact (h.retire hf).requeue
  | transfer a =>
      rcases List.exists_cons_of_ne_nil hg.1 with ⟨f, fs, hf⟩
      refine ⟨hbase, ?_, ?_⟩ <;> simp only [next, hf]
      · exact fun r hr => absurd hr List.not_mem_nil
      · exact taken_take h hf
  | unwind =>
      rcases List.exists_cons_of_ne_nil hg with ⟨f, fs, hf⟩
      have hnone : s.unserved = [] := h.unserved_eq hc
      refine ⟨hbase, ?_, ?_⟩ <;> simp only [next, hf]
      · rw [hnone]
        exact fun r hr => absurd hr List.not_mem_nil
      · exact h.taken

theorem inv_start : Inv (start : State A) where
  flag := by simp [start]
  seen := by simp [start]
  polled := by simp [start]
  asked := by simp [start]
  rooted := by simp [start]
  outside _ _ := rfl
  own := by simp [start]
  taken := by simp [start]

/-- Another poll has taken a request, or the innermost one is going to. -/
def Bad (s : State A) : Prop :=
  (∃ r ∈ s.unserved, s.frames ≠ [] ∧ s.frames.head?.map Frame.poll ≠ some r) ∨
    ∃ t ∈ s.takes, ∃ r ∈ t.requests, r ≠ t.poll

theorem bad_take (hbad : Bad s) (hf : s.frames = f :: fs) :
    ∃ t ∈ (s.takeYieldRequested f).takes, ∃ r ∈ t.requests, r ≠ t.poll := by
  rcases hbad with ⟨r, hr, _, hne⟩ | ⟨t, ht, hbad⟩
  · refine ⟨_, List.mem_cons_self, r, hr, fun heq => hne ?_⟩
    rw [hf, heq]
    rfl
  · exact ⟨t, List.mem_cons_of_mem _ ht, hbad⟩

/-- A request that an outer poll has made is taken by the inner one, unless that
    unwinds. -/
theorem bad_next [DecidableEq A] {a : Action A} (h : Base s) (hbad : Bad s) (hg : guard s a)
    (ha : a ≠ .unwind) : Bad (next s a) := by
  -- The inner poll is over when it takes the request; until then nothing is taken from it.
  cases a with
  | enter a =>
      refine hbad.imp_left ?_
      rintro ⟨r, hr, -, -⟩
      refine ⟨r, hr, List.cons_ne_nil _ _, fun heq => ?_⟩
      have hlt := h.asked r hr
      rw [← Option.some.inj heq] at hlt
      exact Nat.lt_irrefl _ hlt
  | yieldNow =>
      simp only [next, State.yieldNow]
      split
      · refine hbad.imp_left ?_
        rintro ⟨r, hr, hne⟩
        exact ⟨r, List.mem_append_left _ hr, hne⟩
      · exact hbad
  | ready =>
      rcases List.exists_cons_of_ne_nil hg with ⟨f, fs, hf⟩
      simp only [next, hf]
      exact .inr (bad_take hbad hf)
  | pending parked =>
      rcases List.exists_cons_of_ne_nil hg with ⟨f, fs, hf⟩
      have htakes : (next s (.pending parked)).takes = (s.takeYieldRequested f).takes := by
        simp only [next, hf]
        split
        · rfl
        · cases s.yieldRequested <;> rfl
      exact .inr (htakes ▸ bad_take hbad hf)
  | transfer a =>
      rcases List.exists_cons_of_ne_nil hg.1 with ⟨f, fs, hf⟩
      simp only [next, hf]
      exact .inr (bad_take hbad hf)
  | unwind => exact absurd rfl ha

/-- A call that begins under a set flag is in for somebody else's request. -/
theorem bad_of_enter [DecidableEq A] (h : Base s) (hc : ¬ calm s (.enter a)) :
    Bad (next s (.enter a)) := by
  have hflag : s.yieldRequested = true := by
    simpa [calm] using hc
  rcases List.exists_mem_of_ne_nil _ (h.flag.mp hflag) with ⟨r, hr⟩
  refine .inl ⟨r, hr, List.cons_ne_nil _ _, fun heq => ?_⟩
  have hlt := h.asked r hr
  rw [← Option.some.inj heq] at hlt
  exact Nat.lt_irrefl _ hlt

/-- When nothing is polled any more, what was going to be taken has been. -/
theorem not_belongs_of_bad (hbad : Bad s) (hend : s.frames = []) : ¬ Belongs s := by
  rintro ⟨htakes, -⟩
  rcases hbad with ⟨r, _, hne, _⟩ | ⟨t, ht, r, hr, hne⟩
  · exact hne hend
  · exact hne ((htakes t ht).2 r hr)

variable [DecidableEq A]

theorem bad_run (as : List (Action A)) : ∀ s : State A, Base s → Bad s →
    system.Legal s as → .unwind ∉ as → Bad (system.run s as) := by
  induction as with
  | nil => exact fun s _ hbad _ _ => hbad
  | cons a as ih =>
      intro s h hbad hl hno
      refine ih _ (base_next h hl.1) (bad_next h hbad hl.1 ?_) hl.2 ?_
      · exact fun ha => hno (ha ▸ List.mem_cons_self)
      · exact fun hmem => hno (List.mem_cons_of_mem a hmem)

theorem calm_of_belongs (as : List (Action A)) : ∀ s : State A, Base s →
    system.Legal s as → .unwind ∉ as → (system.run s as).frames = [] →
    system.Throughout Belongs s as → system.Along calm s as := by
  induction as with
  | nil => exact fun s _ _ _ _ _ => trivial
  | cons a as ih =>
      intro s h hl hno hend hall
      have hrest : Action.unwind ∉ as := fun hmem => hno (List.mem_cons_of_mem a hmem)
      refine ⟨?_, ih _ (base_next h hl.1) hl.2 hrest hend hall.2⟩
      cases a with
      | enter a =>
          by_contra hc
          have hnext : Base (next s (.enter a)) := base_next h hl.1
          have hbad := bad_run as _ hnext (bad_of_enter h hc) hl.2 hrest
          exact not_belongs_of_bad hbad hend (system.throughout_run as _ hall.2)
      | unwind => exact absurd List.mem_cons_self hno
      | yieldNow | ready | pending _ | transfer _ => trivial

/-- While no call begins and none unwinds under a set flag, requests belong to the
    polls that made them. Of the runs in which every call returns, these are the only
    ones. -/
theorem belongs_iff (as : List (Action A)) (hl : system.Legal (start : State A) as) :
    (system.Along calm start as → system.Throughout Belongs (start : State A) as) ∧
      (.unwind ∉ as → (system.run (start : State A) as).frames = [] →
        system.Throughout Belongs start as → system.Along calm start as) :=
  ⟨system.throughout_of_along (fun _ h => h.belongs) (fun _ _ h hg hc => inv_next h hg hc) as _
    inv_start hl, calm_of_belongs as _ inv_start.toBase hl⟩

end

/-- Task 0 polls its child 1, which yields; then it yields itself. -/
def nested : List (Action ℕ) :=
  [.enter 0, .enter 1, .yieldNow, .pending false, .yieldNow, .pending false]

theorem belongs_nested : system.Throughout Belongs start nested :=
  (belongs_iff nested (by decide)).1 (by decide)

/-- Task 0 yields, and polls the handle of its child before it returns, as a `join` of
    the two does. -/
def joined : List (Action ℕ) :=
  [.enter 0, .yieldNow, .enter 1, .ready, .pending false]

/-- The child's call takes the request, and task 0 is queued as if it had made none. -/
theorem inner_takes :
    let s := system.run start joined
    system.Reachable s ∧ ¬ Belongs s ∧ s.takes = [⟨0, false, []⟩, ⟨1, true, [0]⟩] ∧
      s.pushed = [0] ∧ s.deferred = [] :=
  ⟨system.reachable_run joined start rfl (by decide), by decide, by decide, rfl, rfl⟩

end Yielding

end Worker

end Cmpth

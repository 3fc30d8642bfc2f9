import Cmpth.Duty.Plan

/-!
# The Keeper's Sleep

While the keeper is asleep, every duty is due no earlier than it plans to wake
up, left to a timed worker, or about to be reported to it. This holds as long as
a due time moves earlier only by stores that `replan` follows. The stores of
`touch` and of `run` are not: both reset a period that has backed off.

## Main definitions

* `ThreadPc.Requests`: A thread is about to make the keeper look.
* `State.Covers`: The keeper's plan, as far as it is made, covers a due time.
* `NeverOversleeps`: The keeper does not sleep past a due time.
* `KeepsDue`: A store that no `replan` follows leaves the due time covered.
* `KeeperInv`: The invariant.

## Theorems

* `State.Covers.congr`, `ThreadPc.Requests.inFlight`: What covers a due time, and who is about to
  ask for it.
* `State.Good.mono`: What covers a due time covers a later one.
* `saturatingAdd_le`, `saturatingAdd_mono`: Sums of times stay below `NEVER`, and in order.
* `counted_le`, `counted_account_le`, `account_le`: The due times that the keeper counts are
  bounded.
* `covers_of_planned`: The keeper's plan covers what is no earlier than it.
* `good_thread`: A step of a thread leaves the keeper's pc alone, and may not take a request back
  that it has not made.
* `Inner.due_beginRun`: The run of a duty begins by clearing its deadline.
* `Inner.due_dropWaiter`: A duty that has fewer waiters is due no earlier.
* `Inner.due_waiter`: A second waiter changes nothing.
* `due_setInner`: Of the duties only one changes, and stays where it may run.
* `inv_of_start`: A keeper that begins a round looks at everything.
* `inv_thread`: A step of a thread.
* `inv_setInner`: A store to a duty by nobody's operation.
* `safe_of_quiet`: A thread that has no request in flight has none to take back.
* `inv_quiet`: A step of a thread that stores to nothing the keeper looks at.
* `inv_store`: A step of a thread that stores to a duty.
* `inv_step`: A thread's operation takes its next step.
* `counted_account`: The keeper has taken a due time into account.
* `inv_keeper`: A step of the keeper that makes no difference to whom it hears.
* `inv_keeperStep`: The keeper takes its next step: its plan goes on covering the duties it does not
  look at, and covers the one it does.
* `keeperInv_next`: A step that keeps the due times covered keeps the invariant.
* `keeperInv_init`: The invariant holds at the beginning.
* `KeeperInv.sleeps`: The invariant says that the keeper does not oversleep.
* `never_oversleeps`: The keeper does not oversleep in runs of such steps.
* `never_oversleeps_earlyDeadline`: A deadline that is set early.
* `touch_oversleeps`: The keeper sleeps on past the time at which the duty is due.
-/

namespace Cmpth

namespace Duty

variable {D T : Type*}

/-- The thread is about to make the keeper look at a duty that is due at
    `due`, unless it plans to anyway. -/
def ThreadPc.Requests (d : D) (due : Nat) : ThreadPc D → Prop
  | .registering d' | .replanning d' => d' = d
  | .comparing d' due' => d' = d ∧ due' ≤ due
  | .unparking => True
  | _ => False

/-- The least due time the keeper has found of the duties of one kind. -/
def counted (place : DutyPlace) (mine any : Nat) : Nat :=
  match place with
  | .keeper => mine
  | .anywhere => any

/-- The keeper is going to look at the duty, or its plan is no later than
    `due`, or it leaves the duty to a timed worker. -/
def State.Covers (s : State D T) (d : D) (due : Nat) : Prop :=
  match s.keeper with
  | .unborn | .start | .locking => True
  | .visiting _ rest mine any => d ∈ rest ∨ counted (s.inner d).place mine any ≤ due
  | .running _ _ d' rest mine any | .ran _ d' rest mine any =>
      d = d' ∨ d ∈ rest ∨ counted (s.inner d).place mine any ≤ due
  | .planning _ mine any | .covering _ mine any _ => counted (s.inner d).place mine any ≤ due
  | .storing r | .parking r | .parked r =>
      r.next ≤ due ∨ (s.inner d).place = .anywhere ∧ r.trusted ≠ none

/-- The due time is covered, or somebody is about to make the keeper look. -/
def State.Good (s : State D T) (d : D) (due : Nat) : Prop :=
  s.Covers d due ∨ s.token = true ∨ ∃ t, (s.pc t).Requests d due

/-- The thread has a request to the keeper in flight. -/
def ThreadPc.InFlight : ThreadPc D → Prop
  | .registering _ | .replanning _ | .comparing _ _ | .unparking => True
  | _ => False

/-- With no request in flight, the keeper does not sleep past a due time, except
    that it may leave a duty that runs anywhere to a timed worker until the slack
    after that worker's promise is over. -/
def NeverOversleeps (s : State D T) : Prop :=
  (∀ t, ¬ (s.pc t).InFlight) → s.token = false → ∀ r, s.keeper = .parked r → ∀ d ∈ s.reg,
    s.planned ≤ (s.inner d).due ∨
      (s.inner d).place = .anywhere ∧ s.timed = true ∧
        ∃ promise, r.trusted = some promise ∧ s.planned ≤ saturatingAdd promise TIMED_SLACK

/-- The store moves the due time no earlier, or the due time stays covered. -/
def State.Keeps (s : State D T) (d : D) (i : Inner) : Prop :=
  (s.inner d).due ≤ i.due ∨ d ∉ s.reg ∨ s.Good d i.due

/-- A store that no `replan` follows, of a touch, of the run of a duty by a
    worker or of its poll, leaves the due time covered. -/
def KeepsDue (s : State D T) : Action D T → Prop
  | .touch _ d now => (s.inner d).stale now → s.Keeps d { s.inner d with last := now }
  | .requeue _ d time => s.Keeps d { s.inner d with deadline := min (s.inner d).deadline time }
  | .step t now _ =>
      match s.pc t with
      | .touching d minPeriod => s.Keeps d ((s.inner d).resetPeriod minPeriod)
      | .running .polling _ d _ => s.Keeps d { s.inner d with last := now }
      | .running (.polled did minPeriod maxPeriod) _ d _ =>
          s.Keeps d ((s.inner d).finishRun did minPeriod maxPeriod)
      | _ => True
  | _ => True

/-- What the keeper has read fits what it has stored. -/
def KeeperPc.Ok (planned : Nat) : KeeperPc D → Prop
  | .unborn | .start => True
  | .locking => planned = NEVER
  | .visiting _ _ mine any | .running _ _ _ _ mine any | .ran _ _ _ mine any
    | .planning _ mine any | .covering _ mine any _ => planned = NEVER ∧ mine ≤ NEVER ∧ any ≤ NEVER
  | .storing r => planned = NEVER ∧ r.next ≤ NEVER
  | .parking r | .parked r => planned = r.next

/-- The keeper relies on a timed worker. -/
def KeeperPc.Trusts : KeeperPc D → Prop
  | .storing r | .parking r | .parked r => r.trusted ≠ none
  | _ => False

/-- Due times are covered or about to be, and the keeper's round is well formed. -/
structure KeeperInv (s : State D T) : Prop where
  good : ∀ d ∈ s.reg, s.Good d (s.inner d).due
  keeper : s.keeper.Ok s.planned
  /-- Whoever gives the role up tells the keeper. -/
  trusted : s.keeper.Trusts → s.timed = true ∨ s.token = true ∨ ∃ t, s.pc t = .unparking

section

variable {s s' : State D T} {d : D} {due due' : Nat}

theorem ThreadPc.Requests.mono {pc : ThreadPc D} (h : pc.Requests d due) (hle : due ≤ due') :
    pc.Requests d due' := by
  cases pc with
  | comparing d' w => exact ⟨h.1, h.2.trans hle⟩
  | registering | replanning => exact h
  | unparking => trivial
  | idle | touching | bounding | sweeping | running | offering | taking | promising | leaving
    | releasing => exact h.elim

theorem ThreadPc.Requests.inFlight {pc : ThreadPc D} (h : pc.Requests d due) : pc.InFlight := by
  cases pc <;> trivial

theorem State.Covers.mono (h : s.Covers d due) (hle : due ≤ due') : s.Covers d due' := by
  unfold State.Covers at h ⊢
  cases hk : s.keeper <;> rw [hk] at h
  case unborn | start | locking => trivial
  case visiting => exact h.imp_right (·.trans hle)
  case running | ran => exact h.imp_right fun h => h.imp_right (·.trans hle)
  case planning | covering => exact h.trans hle
  case storing | parking | parked => exact h.imp_left (·.trans hle)

theorem State.Covers.congr (h : s.Covers d due) (hk : s'.keeper = s.keeper)
    (hp : (s'.inner d).place = (s.inner d).place) : s'.Covers d due := by
  unfold State.Covers at h ⊢
  rw [hk, hp]
  exact h

/-- What covers a due time covers a later one. -/
theorem State.Good.mono (h : s.Good d due) (hle : due ≤ due') : s.Good d due' := by
  rcases h with h | h | ⟨t, h⟩
  · exact .inl (h.mono hle)
  · exact .inr (.inl h)
  · exact .inr (.inr ⟨t, h.mono hle⟩)

theorem saturatingAdd_le (a b : Nat) : saturatingAdd a b ≤ NEVER :=
  min_le_right _ _

theorem counted_le {place : DutyPlace} {mine any : Nat} (h : mine ≤ NEVER) (h' : any ≤ NEVER) :
    counted place mine any ≤ NEVER := by
  cases place
  · exact h'
  · exact h

/-- The keeper's plan covers what is no earlier than it. Until the plan is made
    nothing is. -/
theorem covers_of_planned (hok : s.keeper.Ok s.planned) (hle : s.planned ≤ due) :
    s.Covers d due := by
  unfold State.Covers
  -- While the round is on the plan is made; after the store it is what the keeper sleeps by.
  cases hk : s.keeper <;> rw [hk] at hok
  case unborn | start | locking => trivial
  case visiting =>
    rcases hok with ⟨hp, hm, ha⟩
    exact .inr ((counted_le hm ha).trans (hp ▸ hle))
  case running | ran =>
    rcases hok with ⟨hp, hm, ha⟩
    exact .inr (.inr ((counted_le hm ha).trans (hp ▸ hle)))
  case planning | covering =>
    rcases hok with ⟨hp, hm, ha⟩
    exact (counted_le hm ha).trans (hp ▸ hle)
  case storing =>
    rcases hok with ⟨hp, hn⟩
    exact .inl (hn.trans (hp ▸ hle))
  case parking | parked =>
    have hok : s.planned = _ := hok
    exact .inl (hok ▸ hle)

/-- A step of a thread leaves the keeper's pc alone, and may not take a request
    back that it has not made. -/
theorem good_thread (h : s.Good d due) (hle : due ≤ due') (hk : s'.keeper = s.keeper)
    (hp : (s'.inner d).place = (s.inner d).place) (htok : s.token = true → s'.token = true)
    (hpc : ∀ t, (s.pc t).Requests d due → s'.Good d due) : s'.Good d due' := by
  refine State.Good.mono ?_ hle
  rcases h with h | h | ⟨t, h⟩
  · exact .inl (h.congr hk hp)
  · exact .inr (.inl (htok h))
  · exact hpc t h

/-- The run of a duty begins by clearing its deadline. -/
theorem Inner.due_beginRun (i : Inner) : i.due ≤ { i with deadline := NEVER }.due := by
  change min (saturatingAdd i.last i.effectivePeriod) i.deadline ≤
    min (saturatingAdd i.last i.effectivePeriod) NEVER
  rw [min_eq_left (saturatingAdd_le _ _)]
  exact min_le_left _ _

theorem saturatingAdd_mono (a : Nat) {b b' : Nat} (h : b ≤ b') :
    saturatingAdd a b ≤ saturatingAdd a b' := by
  unfold saturatingAdd
  omega

/-- A duty that has fewer waiters is due no earlier. -/
theorem Inner.due_dropWaiter (i : Inner) :
    i.due ≤ { i with waiters := i.waiters - 1 }.due := by
  refine min_le_min ?_ le_rfl
  refine saturatingAdd_mono _ ?_
  unfold Inner.effectivePeriod
  dsimp only
  by_cases hw : i.waiters = 0
  · rw [hw]
  · rw [if_pos hw]
    split
    · exact le_rfl
    · exact min_le_left _ _

/-- A second waiter changes nothing. -/
theorem Inner.due_waiter (i : Inner) (hw : i.waiters ≠ 0) :
    i.due = { i with waiters := i.waiters + 1 }.due := by
  unfold Inner.due Inner.effectivePeriod
  rw [if_pos hw, if_pos (Nat.succ_ne_zero _)]

end

section

variable [DecidableEq D] [DecidableEq T] {s s' : State D T}

omit [DecidableEq T] in
/-- Of the duties only one changes, and stays where it may run. -/
theorem due_setInner (pc : ThreadPc D) {d : D} {i : Inner} (hplace : i.place = (s.inner d).place)
    (hkeeps : s.Keeps d i ∨ pc.Requests d i.due) (d' : D) :
    (Function.update s.inner d i d').place = (s.inner d').place ∧
      ((s.inner d').due ≤ (Function.update s.inner d i d').due ∨ d' ∉ s.reg ∨
        s.Good d' (Function.update s.inner d i d').due ∨
        pc.Requests d' (Function.update s.inner d i d').due) := by
  by_cases hd : d' = d
  · subst hd
    rw [Function.update_self]
    refine ⟨hplace, ?_⟩
    rcases hkeeps with (h | h | h) | h
    · exact .inl h
    · exact .inr (.inl h)
    · exact .inr (.inr (.inl h))
    · exact .inr (.inr (.inr h))
  · rw [Function.update_of_ne hd]
    exact ⟨rfl, .inl le_rfl⟩

omit [DecidableEq D] [DecidableEq T] in
/-- A keeper that begins a round looks at everything. -/
theorem inv_of_start (hk : s'.keeper = .start) : KeeperInv s' := by
  refine ⟨fun d _ => .inl ?_, ?_, fun ht => ?_⟩
  · unfold State.Covers
    rw [hk]
    trivial
  · rw [hk]
    trivial
  · rw [hk] at ht
    exact ht.elim

omit [DecidableEq D] in
/-- A step of a thread. What it stores is covered or it is going to tell the
    keeper, and what it was going to tell it has told. -/
theorem inv_thread (h : KeeperInv s) {t : T} {pc : ThreadPc D}
    (hpc : s'.pc = Function.update s.pc t pc) (hreg : s'.reg = s.reg)
    (hplanned : s'.planned = s.planned) (hk : s'.keeper = s.keeper ∨ s'.keeper = .start)
    (htok : s.token = true → s'.token = true)
    (htimed : s.timed = true → s'.timed = true ∨ pc = .unparking)
    (hunpark : s.pc t = .unparking → s'.token = true)
    (hdue : ∀ d, (s'.inner d).place = (s.inner d).place ∧
      ((s.inner d).due ≤ (s'.inner d).due ∨ d ∉ s.reg ∨ s.Good d (s'.inner d).due ∨
        pc.Requests d (s'.inner d).due))
    (hsafe : ∀ d due, due = (s.inner d).due ∨ due = (s'.inner d).due →
      (s.pc t).Requests d due → s'.Good d due) : KeeperInv s' := by
  have hself : s'.pc t = pc := by
    rw [hpc]
    exact Function.update_self ..
  have hother : ∀ t', t' ≠ t → s'.pc t' = s.pc t' := fun t' hne => by
    rw [hpc]
    exact Function.update_of_ne hne ..
  -- A step that starts the keeper makes it look at everything.
  rcases hk with hk | hk
  case inr => exact inv_of_start hk
  -- The others request what they requested.
  have hreq : ∀ d due, due = (s.inner d).due ∨ due = (s'.inner d).due →
      ∀ t', (s.pc t').Requests d due → s'.Good d due := by
    intro d due hv t' ht'
    by_cases hne : t' = t
    · rw [hne] at ht'
      exact hsafe d due hv ht'
    · exact .inr (.inr ⟨t', by rw [hother t' hne]; exact ht'⟩)
  refine ⟨fun d hd => ?_, ?_, fun ht => ?_⟩
  · rw [hreg] at hd
    -- What it stores is later, not of this registry, covered already, or requested by `t` itself.
    rcases hdue d with ⟨hplace, hle | hnot | hgood | hrequests⟩
    · exact good_thread (h.good d hd) hle hk hplace htok (hreq d _ (.inl rfl))
    · exact absurd hd hnot
    · exact good_thread hgood le_rfl hk hplace htok (hreq d _ (.inr rfl))
    · exact .inr (.inr ⟨t, by rw [hself]; exact hrequests⟩)
  · rw [hk, hplanned]
    exact h.keeper
  · rw [hk] at ht
    rcases h.trusted ht with htr | htr | ⟨t', htr⟩
    · rcases htimed htr with h1 | h1
      · exact .inl h1
      · exact .inr (.inr ⟨t, hself.trans h1⟩)
    · exact .inr (.inl (htok htr))
    · by_cases hne : t' = t
      · rw [hne] at htr
        exact .inr (.inl (hunpark htr))
      · exact .inr (.inr ⟨t', (hother t' hne).trans htr⟩)

omit [DecidableEq T] in
/-- A store to a duty by nobody's operation. -/
theorem inv_setInner (h : KeeperInv s) {d : D} {i : Inner} (hplace : i.place = (s.inner d).place)
    (hkeeps : s.Keeps d i) : KeeperInv (s.setInner d i) := by
  refine ⟨fun d' hd => ?_, h.keeper, h.trusted⟩
  have hsame : ∀ due, s.Good d' due → (Function.update s.inner d i d').place = (s.inner d').place →
      (s.setInner d i).Good d' due := fun due hgood hp =>
    good_thread hgood le_rfl rfl hp id fun t ht => .inr (.inr ⟨t, ht⟩)
  rcases due_setInner .idle hplace (.inl hkeeps) d' with ⟨hp, hle | hnot | hgood | hreq⟩
  · exact (hsame _ (h.good d' hd) hp).mono hle
  · exact absurd hd hnot
  · exact hsame _ hgood hp
  · exact hreq.elim

omit [DecidableEq D] [DecidableEq T] in
/-- A thread that has no request in flight has none to take back. -/
theorem safe_of_quiet {t : T} (hq : ¬ (s.pc t).InFlight) :
    (s.pc t = .unparking → s'.token = true) ∧
      ∀ d due, due = (s.inner d).due ∨ due = (s'.inner d).due →
        (s.pc t).Requests d due → s'.Good d due :=
  ⟨fun h => absurd (h ▸ trivial) hq, fun _ _ _ h => absurd h.inFlight hq⟩

omit [DecidableEq D] in
/-- A step of a thread that stores to nothing the keeper looks at. -/
theorem inv_quiet (h : KeeperInv s) {t : T} {pc : ThreadPc D} (hq : ¬ (s.pc t).InFlight)
    (hpc : s'.pc = Function.update s.pc t pc) (hinner : s'.inner = s.inner)
    (hreg : s'.reg = s.reg) (hplanned : s'.planned = s.planned) (hk : s'.keeper = s.keeper)
    (htok : s'.token = s.token) (htimed : s.timed = true → s'.timed = true ∨ pc = .unparking) :
    KeeperInv s' :=
  inv_thread h hpc hreg hplanned (.inl hk) (fun ht => htok.trans ht) htimed (safe_of_quiet hq).1
    (fun d => by rw [hinner]; exact ⟨rfl, .inl le_rfl⟩) (safe_of_quiet hq).2

/-- A step of a thread that stores to a duty. -/
theorem inv_store (h : KeeperInv s) {t : T} {pc : ThreadPc D} {d : D} {i : Inner}
    (hq : ¬ (s.pc t).InFlight) (hplace : i.place = (s.inner d).place)
    (hkeeps : s.Keeps d i ∨ pc.Requests d i.due) :
    KeeperInv ((s.setInner d i).setPc t pc) :=
  inv_thread h rfl rfl rfl (.inl rfl) id .inl (safe_of_quiet hq).1
    (due_setInner pc hplace hkeeps) (safe_of_quiet hq).2

/-- A thread's operation takes its next step. -/
theorem inv_step (h : KeeperInv s) {t : T} {now : Nat} {did : Bool}
    (hc : KeepsDue s (.step t now did)) : KeeperInv (s.threadStep t now did) := by
  have hin : ∀ pc, s.pc t = pc → ¬ pc.InFlight → ¬ (s.pc t).InFlight := by
    rintro pc rfl hq
    exact hq
  unfold KeepsDue at hc
  unfold State.threadStep
  -- One case for each access of an operation: only a few of them store a due time.
  cases hpc : s.pc t with
  | idle => exact h
  | registering d =>
      refine inv_thread h rfl rfl rfl ?_ id .inl (fun hu => by rw [hpc] at hu; cases hu)
        (fun d => ⟨rfl, .inl le_rfl⟩) fun d' due _ hr => .inr (.inr ⟨t, ?_⟩)
      · change (if s.keeper = .unborn then KeeperPc.start else s.keeper) = s.keeper ∨
          (if s.keeper = .unborn then KeeperPc.start else s.keeper) = .start
        split
        · exact .inr rfl
        · exact .inl rfl
      · change (Function.update s.pc t (.replanning d) t).Requests d' due
        rw [Function.update_self]
        rw [hpc] at hr
        exact hr
  | replanning d =>
      refine inv_thread h rfl rfl rfl (.inl rfl) id .inl (fun hu => by rw [hpc] at hu; cases hu)
        (fun d => ⟨rfl, .inl le_rfl⟩) fun d' due hv hr => .inr (.inr ⟨t, ?_⟩)
      change (Function.update s.pc t (.comparing d (s.inner d).due) t).Requests d' due
      rw [Function.update_self]
      rw [hpc] at hr
      have hd : d = d' := hr
      subst hd
      exact ⟨rfl, le_of_eq ((or_self_iff.mp hv).symm)⟩
  | comparing d w =>
      refine inv_thread h rfl rfl rfl (.inl rfl) id .inl (fun hu => by rw [hpc] at hu; cases hu)
        (fun d => ⟨rfl, .inl le_rfl⟩) fun d' due _ hr => ?_
      rw [hpc] at hr
      rcases hr with ⟨rfl, hle⟩
      -- `replan` compares with the plan, and unparks the keeper if that is later.
      by_cases hw : w < s.planned
      · refine .inr (.inr ⟨t, ?_⟩)
        change (Function.update s.pc t
          (if w < s.planned then .unparking else .idle) t).Requests d due
        rw [Function.update_self, if_pos hw]
        trivial
      · -- The plan it has found is early enough.
        exact .inl ((covers_of_planned h.keeper ((not_lt.mp hw).trans hle)).congr rfl rfl)
  | unparking =>
      exact inv_thread h rfl rfl rfl (.inl rfl) (fun _ => rfl) .inl (fun _ => rfl)
        (fun d => ⟨rfl, .inl le_rfl⟩) fun _ _ _ _ => .inr (.inl rfl)
  | touching d minPeriod =>
      simp only [hpc] at hc
      refine inv_store h (hin _ hpc id) ?_ (.inl hc)
      unfold Inner.resetPeriod
      split <;> rfl
  | bounding d minPeriod => exact inv_store h (hin _ hpc id) rfl (.inr rfl)
  | sweeping now' rest =>
      cases rest with
      | nil => exact inv_quiet h (hin _ hpc id) rfl rfl rfl rfl rfl rfl .inl
      | cons d rest =>
          dsimp only
          split
          · exact inv_store h (hin _ hpc id) rfl (.inl (.inl (Inner.due_beginRun _)))
          · exact inv_quiet h (hin _ hpc id) rfl rfl rfl rfl rfl rfl .inl
  | running run now' d rest =>
      simp only [hpc] at hc
      cases run with
      | polling => exact inv_store h (hin _ hpc id) rfl (.inl hc)
      | polled did' minPeriod maxPeriod =>
          refine inv_store h (hin _ hpc id) ?_ (.inl hc)
          unfold Inner.finishRun
          repeat' split
          all_goals rfl
  | offering next =>
      dsimp only
      split
      · exact inv_quiet h (hin _ hpc id) rfl rfl rfl rfl rfl rfl fun _ => .inl rfl
      · exact inv_quiet h (hin _ hpc id) rfl rfl rfl rfl rfl rfl .inl
  | taking next promise =>
      dsimp only
      split
      · exact inv_quiet h (hin _ hpc id) rfl rfl rfl rfl rfl rfl .inl
      · exact inv_quiet h (hin _ hpc id) rfl rfl rfl rfl rfl rfl fun _ => .inl rfl
  | promising | leaving => exact inv_quiet h (hin _ hpc id) rfl rfl rfl rfl rfl rfl .inl
  | releasing => exact inv_quiet h (hin _ hpc id) rfl rfl rfl rfl rfl rfl fun _ => .inr rfl

/-- The keeper has taken a due time into account. -/
theorem counted_account {place : DutyPlace} {due mine any : Nat} :
    counted place (account place due mine any).1 (account place due mine any).2 ≤ due := by
  cases place <;> exact min_le_right _ _

theorem counted_account_le (place place' : DutyPlace) (due mine any : Nat) :
    counted place (account place' due mine any).1 (account place' due mine any).2 ≤
      counted place mine any := by
  cases place <;> cases place' <;> first | exact le_rfl | exact min_le_left _ _

theorem account_le {place : DutyPlace} {due mine any : Nat} (hm : mine ≤ NEVER)
    (ha : any ≤ NEVER) :
    (account place due mine any).1 ≤ NEVER ∧ (account place due mine any).2 ≤ NEVER := by
  cases place
  · exact ⟨hm, (min_le_left _ _).trans ha⟩
  · exact ⟨(min_le_left _ _).trans hm, ha⟩

omit [DecidableEq D] [DecidableEq T] in
/-- A step of the keeper that makes no difference to whom it hears. -/
theorem inv_keeper (h : KeeperInv s) (hpc : s'.pc = s.pc) (hreg : s'.reg = s.reg)
    (htok : s'.token = s.token) (htimed : s'.timed = s.timed) (hok : s'.keeper.Ok s'.planned)
    (htr : s'.keeper.Trusts → s.keeper.Trusts ∨ s.timed = true)
    (hcov : ∀ d, s'.Covers d (s'.inner d).due ∨
      s'.inner d = s.inner d ∧ ∀ due, s.Covers d due → s'.Covers d due) : KeeperInv s' := by
  refine ⟨fun d hd => ?_, hok, fun ht => ?_⟩
  · rw [hreg] at hd
    rcases hcov d with hc | ⟨hinner, hc⟩
    · exact .inl hc
    · rw [hinner]
      rcases h.good d hd with hg | hg | ⟨t, hg⟩
      · exact .inl (hc _ hg)
      · exact .inr (.inl (htok.trans hg))
      · exact .inr (.inr ⟨t, by rw [hpc]; exact hg⟩)
  · rcases htr ht with hx | hx
    · rw [htimed, htok, hpc]
      exact h.trusted hx
    · exact .inl (htimed.trans hx)

omit [DecidableEq T] in
/-- The keeper takes its next step: its plan goes on covering the duties it does
    not look at, and covers the one it does. -/
theorem inv_keeperStep (h : KeeperInv s) {now : Nat} {did : Bool} :
    KeeperInv (s.keeperStep now did) := by
  have hok := h.keeper
  have hother : ∀ (d' d : D) (i : Inner), d' ≠ d → (s.setInner d i).inner d' = s.inner d' :=
    fun d' d i hne => Function.update_of_ne hne ..
  -- The duty it looks at is covered until it has read the due time.
  have hrunning : ∀ {s' : State D T} (d : D) (i : Inner), s' = { s.setInner d i with
      keeper := s'.keeper } → (∀ due, s'.Covers d due) →
      (∀ d', d' ≠ d → ∀ due, s.Covers d' due → s'.Covers d' due) → ∀ d',
      s'.Covers d' (s'.inner d').due ∨
        s'.inner d' = s.inner d' ∧ ∀ due, s.Covers d' due → s'.Covers d' due := by
    intro s' d i hs' hself hrest d'
    by_cases hne : d' = d
    · rw [hne]
      exact .inl (hself _)
    · refine .inr ⟨?_, hrest d' hne⟩
      rw [hs']
      exact hother d' d i hne
  unfold State.keeperStep
  -- The accesses of one round, from the lock to the sleep.
  cases hk : s.keeper <;> rw [hk] at hok
  case unborn => exact h
  case start => exact inv_keeper h rfl rfl rfl rfl rfl (fun ht => ht.elim) fun _ => .inl trivial
  case locking =>
    refine ⟨fun d hd => .inl (.inl hd), ⟨hok, le_rfl, le_rfl⟩, fun ht => ht.elim⟩
  case visiting now' rest mine any =>
    cases rest with
    | nil =>
        refine inv_keeper h rfl rfl rfl rfl hok (fun ht => ht.elim) fun d => .inr ⟨rfl, ?_⟩
        intro due hc
        unfold State.Covers at hc
        rw [hk] at hc
        exact hc.resolve_left List.not_mem_nil
    | cons d rest =>
        dsimp only
        split
        · refine inv_keeper h rfl rfl rfl rfl hok (fun ht => ht.elim)
            (hrunning d _ rfl (fun _ => .inl rfl) ?_)
          intro d' hne due hc
          unfold State.Covers at hc
          rw [hk] at hc
          rcases hc with hc | hc
          · exact .inr (.inl ((List.mem_cons.mp hc).resolve_left hne))
          · refine .inr (.inr ?_)
            change counted ((s.setInner d _).inner d').place mine any ≤ due
            rw [hother d' d _ hne]
            exact hc
        · refine inv_keeper h rfl rfl rfl rfl ⟨hok.1, account_le hok.2.1 hok.2.2⟩
            (fun ht => ht.elim) fun d' => ?_
          by_cases hne : d' = d
          · rw [hne]
            exact .inl (.inr counted_account)
          · refine .inr ⟨rfl, fun due hc => ?_⟩
            unfold State.Covers at hc
            rw [hk] at hc
            rcases hc with hc | hc
            · exact .inl ((List.mem_cons.mp hc).resolve_left hne)
            · exact .inr ((counted_account_le ..).trans hc)
  case running run now' d rest mine any =>
    have hrest : ∀ (s' : State D T) (i : Inner), s'.inner = Function.update s.inner d i →
        (∃ run, s'.keeper = .running run now' d rest mine any) ∨
          s'.keeper = .ran now' d rest mine any →
        ∀ d', d' ≠ d → ∀ due, s.Covers d' due → s'.Covers d' due := by
      intro s' i hs' hk' d' hne due hc
      unfold State.Covers at hc ⊢
      rw [hk] at hc
      rcases hk' with ⟨run', hk'⟩ | hk' <;>
        · rw [hk', hs', Function.update_of_ne hne]
          exact hc
    cases run with
    | polling =>
        exact inv_keeper h rfl rfl rfl rfl hok (fun ht => ht.elim)
          (hrunning d _ rfl (fun _ => .inl rfl) (hrest _ _ rfl (.inl ⟨_, rfl⟩)))
    | polled did' minPeriod maxPeriod =>
        exact inv_keeper h rfl rfl rfl rfl hok (fun ht => ht.elim)
          (hrunning d _ rfl (fun _ => .inl rfl) (hrest _ _ rfl (.inr rfl)))
  -- The due time is read now, and taken into account.
  case ran now' d rest mine any =>
    refine inv_keeper h rfl rfl rfl rfl ⟨hok.1, account_le hok.2.1 hok.2.2⟩
      (fun ht => ht.elim) fun d' => ?_
    by_cases hne : d' = d
    · rw [hne]
      exact .inl (.inr counted_account)
    · refine .inr ⟨rfl, fun due hc => ?_⟩
      unfold State.Covers at hc
      rw [hk] at hc
      rcases hc with hc | hc | hc
      · exact absurd hc hne
      · exact .inl hc
      · exact .inr ((counted_account_le ..).trans hc)
  case planning now' mine any =>
    refine inv_keeper h rfl rfl rfl rfl hok (fun ht => ht.elim) fun d =>
      .inr ⟨rfl, fun due hc => ?_⟩
    unfold State.Covers at hc
    rw [hk] at hc
    exact hc
  -- Duties that may run anywhere are left to the timed worker, if its promise is as early.
  case covering now' mine any promise =>
    refine inv_keeper h rfl rfl rfl rfl ⟨hok.1, (min_le_left _ _).trans hok.2.1⟩ (fun ht => ?_)
      fun d => .inr ⟨rfl, fun due hc => ?_⟩
    · by_cases hx : s.timed = true ∧ any ≥ promise ∧ promise ≠ NEVER
      · exact .inr hx.1
      · exact absurd (if_neg hx) ht
    · unfold State.Covers at hc ⊢
      rw [hk] at hc
      dsimp only
      by_cases hx : s.timed = true ∧ any ≥ promise ∧ promise ≠ NEVER
      · -- What it leaves to the worker is what may run anywhere.
        rw [if_pos hx]
        cases hp : (s.inner d).place with
        | anywhere => exact .inr ⟨rfl, nofun⟩
        | keeper =>
            rw [hp] at hc
            exact .inl ((min_le_left _ _).trans hc)
      · rw [if_neg hx]
        refine .inl ?_
        cases hp : (s.inner d).place with
        | anywhere =>
            rw [hp] at hc
            exact (min_le_right _ _).trans hc
        | keeper =>
            rw [hp] at hc
            exact (min_le_left _ _).trans hc
  -- From this store on the plan is what threads compare with.
  case storing r =>
    refine inv_keeper h rfl rfl rfl rfl rfl (fun ht => .inl ?_) fun d =>
      .inr ⟨rfl, fun due hc => ?_⟩
    · rw [hk]
      exact ht
    · unfold State.Covers at hc
      rw [hk] at hc
      exact hc
  case parking r =>
    dsimp only
    split
    · exact inv_of_start rfl
    · refine inv_keeper h rfl rfl rfl rfl hok (fun ht => .inl ?_) fun d =>
        .inr ⟨rfl, fun due hc => ?_⟩
      · rw [hk]
        exact ht
      · unfold State.Covers at hc
        rw [hk] at hc
        exact hc
  case parked r => exact inv_of_start rfl

/-- A step that keeps the due times covered keeps the invariant. -/
theorem keeperInv_next (h : KeeperInv s) {a : Action D T} (hg : guard s a) (hc : KeepsDue s a) :
    KeeperInv (next s a) := by
  have hidle : ∀ t, s.pc t = .idle → ¬ (s.pc t).InFlight := fun t ht => by
    rw [ht]
    exact id
  -- Operations that begin store to one duty, or to nothing the keeper looks at.
  cases a with
  | register t d place period waitPeriod now =>
      have hidle : s.pc t = .idle := hg.1
      have hpc : ∀ t' pc, pc ≠ .idle → s.pc t' = pc →
          Function.update s.pc t (.registering d) t' = pc := by
        rintro t' pc hne rfl
        refine Function.update_of_ne ?_ ..
        rintro rfl
        exact hne hidle
      refine ⟨fun d' hd => ?_, h.keeper, fun ht => (h.trusted ht).imp_right fun ht => ht.imp_right
        fun ⟨t', ht'⟩ => ⟨t', hpc t' .unparking nofun ht'⟩⟩
      by_cases hne : d' = d
      · -- The keeper does not know of the new duty, but it will.
        refine .inr (.inr ⟨t, ?_⟩)
        change (Function.update s.pc t (.registering d) t).Requests d' _
        rw [Function.update_self]
        exact hne.symm
      · have hinner : (next s (.register t d place period waitPeriod now)).inner d' = s.inner d' :=
          Function.update_of_ne hne ..
        have hmem : d' ∈ s.reg :=
          (List.mem_append.mp hd).resolve_right fun hx => hne (List.mem_singleton.mp hx)
        rw [hinner]
        refine good_thread (h.good d' hmem) le_rfl rfl (congrArg Inner.place hinner) id
          fun t' ht' => .inr (.inr ⟨t', ?_⟩)
        change (Function.update s.pc t (.registering d) t').Requests d' _
        rw [hpc t' _ (fun hx => by rw [hx] at ht'; exact ht') rfl]
        exact ht'
  | touch t d now =>
      change KeeperInv (if (s.inner d).stale now then _ else s)
      -- A touch of a duty that is not stale stores its last time only.
      by_cases hst : (s.inner d).stale now
      · rw [if_pos hst]
        exact inv_store h (hidle t hg.1) rfl (.inl (hc hst))
      · rw [if_neg hst]
        exact h
  | waiter t d =>
      refine inv_store h (hidle t hg.1) rfl ?_
      by_cases hw : (s.inner d).waiters = 0
      · rw [if_pos hw]
        exact .inr rfl
      · exact .inl (.inl (le_of_eq (Inner.due_waiter _ hw)))
  | dropWaiter d => exact inv_setInner h rfl (.inl (Inner.due_dropWaiter _))
  | setPeriod t d period => exact inv_store h (hidle t hg.1) rfl (.inl (.inl le_rfl))
  | setWaitPeriod t d period => exact inv_store h (hidle t hg.1) rfl (.inr rfl)
  | setDeadline t d time => exact inv_store h (hidle t hg.1) rfl (.inr rfl)
  | drop d =>
      refine ⟨fun d' hd => ?_, h.keeper, h.trusted⟩
      exact good_thread (h.good d' (List.mem_of_mem_erase hd)) le_rfl rfl rfl id
        fun t ht => .inr (.inr ⟨t, ht⟩)
  | runIdle t now => exact inv_quiet h (hidle t hg.1) rfl rfl rfl rfl rfl rfl .inl
  | park t =>
      unfold next
      dsimp only
      repeat' split
      · exact inv_quiet h (hidle t hg.1) rfl rfl rfl rfl rfl rfl .inl
      · exact h
      · exact inv_quiet h (hidle t hg.1) rfl rfl rfl rfl rfl rfl .inl
  | release t own => exact inv_quiet h (hidle t hg) rfl rfl rfl rfl rfl rfl .inl
  | requeue runner d time => exact inv_setInner h rfl hc
  | step t now did => exact inv_step h hc
  | keeper now did => exact inv_keeperStep h
  | timeout => exact inv_of_start rfl

omit [DecidableEq D] [DecidableEq T] in
theorem keeperInv_init (hi : init s) : KeeperInv s := by
  rcases hi with ⟨_, hreg, _, _, _, _, _, _, hk, _⟩
  refine ⟨fun d hd => ?_, ?_, fun ht => ?_⟩
  · rw [hreg] at hd
    exact absurd hd List.not_mem_nil
  · rw [hk]
    trivial
  · rw [hk] at ht
    exact ht.elim

omit [DecidableEq D] [DecidableEq T] in
theorem KeeperInv.sleeps (h : KeeperInv s) : NeverOversleeps s := by
  intro hquiet htok r hk d hd
  have hplanned : s.planned = r.next := by
    have hok := h.keeper
    rw [hk] at hok
    exact hok
  rcases h.good d hd with hc | hc | ⟨t, hc⟩
  · unfold State.Covers at hc
    rw [hk] at hc
    rw [hplanned]
    rcases hc with hc | ⟨hplace, ht⟩
    · exact .inl hc
    · -- It is left to a worker that still has the role.
      rcases Option.ne_none_iff_exists'.mp ht with ⟨promise, hp⟩
      have htimed : s.timed = true := by
        have htrusted := h.trusted
        rw [hk] at htrusted
        rcases htrusted ht with htr | htr | ⟨t, htr⟩
        · exact htr
        · rw [htok] at htr
          cases htr
        · exact absurd (htr ▸ trivial) (hquiet t)
      refine .inr ⟨hplace, htimed, promise, hp, ?_⟩
      unfold Round.next
      rw [hp]
      exact min_le_right _ _
  · rw [htok] at hc
    cases hc
  · exact absurd hc.inFlight (hquiet t)

/-- The keeper does not oversleep in a run in which every store that no `replan`
    follows leaves the due times covered. -/
theorem never_oversleeps (s : State D T) (as : List (Action D T))
    (hi : (system (D := D) (T := T)).init s) (hl : system.Legal s as)
    (hc : system.Along KeepsDue s as) : system.Throughout NeverOversleeps s as :=
  System.throughout_of_along _ (C := KeepsDue) (I := KeeperInv) (fun _ h => h.sleeps)
    (fun _ _ h hg hc => keeperInv_next h hg hc) as s (keeperInv_init hi) hl hc

end

/-- A deadline before the time the keeper plans for. -/
def earlyDeadline : List (Action Unit Bool) :=
  Action.register false () .anywhere (some (1000, 1000000)) 0 0 ::
    List.replicate 4 (Action.step false 0 false) ++ List.replicate 16 (Action.keeper 100 false) ++
    Action.setDeadline false () 500 :: List.replicate 3 (Action.step false 200 false)

theorem never_oversleeps_earlyDeadline : system.Throughout NeverOversleeps new earlyDeadline := by
  refine never_oversleeps new earlyDeadline new_init (by decide +kernel) ?_
  -- Nobody touches the duty, and no worker runs it.
  unfold earlyDeadline
  iterate 25 refine ⟨trivial, ?_⟩
  exact trivial

/-- An idle worker runs the duty at `now`, and finds nothing. -/
def fruitless (now : Nat) : List (Action Unit Bool) :=
  .runIdle true now :: List.replicate 4 (.step true now false)

/-- A duty of a period of a microsecond that backs off to two. The keeper plans
    to run it two microseconds after the last poll, and a touch in between
    resets the period. -/
def backedOff : List (Action Unit Bool) :=
  Action.register false () .anywhere (some (1000, 1000000)) 0 0 ::
    List.replicate 4 (Action.step false 0 false) ++
    (List.range IDLE_POLLS).flatMap (fun k => fruitless (1000 * (k + 1))) ++
    List.replicate 16 (Action.keeper 50100 false) ++
    [Action.touch true () 50400, .step true 50400 false]

/-- The keeper sleeps on past the time at which the duty is due. -/
theorem touch_oversleeps :
    system.init new ∧ system.Legal new backedOff ∧
      (system.run new backedOff).planned = 52000 ∧
      ((system.run new backedOff).inner ()).due = 51400 ∧
      ¬ system.Throughout NeverOversleeps new backedOff := by
  -- The run ends asleep until 52000, with a duty that is due at 51400.
  have hplanned : (system.run new backedOff).planned = 52000 := by decide +kernel
  have hdue : ((system.run new backedOff).inner ()).due = 51400 := by decide +kernel
  have hquiet : ∀ t, (system.run new backedOff).pc t = .idle := by decide +kernel
  have htok : (system.run new backedOff).token = false := by decide +kernel
  have hkeeper : (system.run new backedOff).keeper =
      .parked { now := 50100, mine := NEVER, any := 52000, trusted := none } := by decide +kernel
  have hmem : () ∈ (system.run new backedOff).reg := by decide +kernel
  refine ⟨new_init, by decide +kernel, hplanned, hdue, fun h => ?_⟩
  have hnever := System.throughout_run _ _ _ h (fun t => by rw [hquiet t]; exact id) htok _ hkeeper
    () hmem
  rcases hnever with hle | ⟨_, _, promise, hp, _⟩
  · rw [hplanned, hdue] at hle
    exact absurd hle (by decide)
  · cases hp

end Duty

end Cmpth

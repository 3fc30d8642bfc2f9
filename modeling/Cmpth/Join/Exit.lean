import Cmpth.Join.Settle

/-!
# Leaving the Descriptor

Whether the exit path stays away from a descriptor it has given up. Publishing
`FINISHED` to a live handle gives it up, and so does freeing it.

A thread publishes from the scheduler's stack and does nothing afterwards. An
async task publishes inside its poll function, and `run_async_poll` then drops
the waker it made for the poll: `drop_async_private` asks the descriptor
whether the waker was ever shared. This happens in every pass that completes
the task, so the passes that keep away are those that do not complete it.

## Main definitions

* `TaskPc.after`: The task has given the descriptor up.
* `ExitInv`: How the program counter relates to that.

## Theorems

* `within_leave`, `after_leave`, `within_exit`, `after_exit`, `within_settle`: Which places belong
  to an exit, and to its end.
* `leave_async_ne_done`, `settle_ne_done`: An async task does not end where a thread does.
* `after_settle`: The swap gives the descriptor up unless it finds the handle gone.
* `ExitInv.task`: A step of the task from a point where it may touch the descriptor, to one that is
  not the end of an async task.
* `ExitInv.handle`: A step of the handle.
* `ExitInv.dropWaker`: The end of a completing pass: the waker is dropped.
* `exit_handoffLoad`, `exit_abandonedLoad`, `exit_next`: Every action keeps the invariant.
* `exit_init`, `exit_reachable`: The invariant holds in every state.
* `thread_exit`: A thread's exit touches nothing it has given up.
* `exiting_next`: Only completing leads out of the passes.
* `exiting_complete`: Completing begins the exit.
* `exiting_run`: There is no way back.
* `along_of_not_exiting`: A run that ends outside the exit has not completed the task.
* `kind_next`, `kind_run`: A task stays of its kind.
* `async_exit`: A pass of an async task does so if it completes the task, and only then.
* `ready_touches_freed`: The handle may even have freed the descriptor.
* `async_exit_pending`: A pass that returns `Pending`.
-/

namespace Cmpth

namespace Join

variable {V P A : Type*}

/-- The task has given the descriptor up. -/
def TaskPc.after : TaskPc A → Bool
  | .resume _ | .wake _ | .claim _ | .dropWaker true | .done _ | .doubleExit => true
  | .idle | .running | .handoff | .abandoned | .write _ | .commit _ | .swap | .dropResult _
  | .free _ | .dropWaker false | .park => false

/-- Which points of the program either kind of task comes to. -/
def TaskPc.within : TaskPc A → Kind → Bool
  | .dropWaker _, k | .park, k => k == .async
  | .handoff, k | .abandoned, k | .write (some _), k | .commit _, k | .dropResult false, k
  | .free false, k | .done false, k => k == .stackful
  | _, _ => true

/-- The body of the task is done. -/
def TaskPc.exiting : TaskPc A → Bool
  | .idle | .running | .dropWaker false | .park => false
  | .handoff | .abandoned | .write _ | .commit _ | .swap | .resume _ | .wake _ | .claim _
  | .dropResult _ | .free _ | .dropWaker true | .done _ | .doubleExit => true

/-- How the program counter relates to what the task has given up. -/
structure ExitInv (s : State V P A) : Prop where
  within : s.task.within s.kind = true
  gaveUp : s.gaveUp = s.task.after
  late : s.late = true ↔ s.kind = .async ∧ s.task = .done true

theorem within_leave (k : Kind) : (k.leave : TaskPc A).within k = true := by
  cases k <;> rfl

theorem after_leave (k : Kind) : (k.leave : TaskPc A).after = true := by
  cases k <;> rfl

theorem within_exit (k : Kind) : (k.exit : TaskPc A).within k = true := by
  cases k <;> rfl

theorem after_exit (k : Kind) : (k.exit : TaskPc A).after = false := by
  cases k <;> rfl

theorem leave_async_ne_done : (Kind.async.leave : TaskPc A) ≠ .done true := by
  unfold Kind.leave
  simp only [ne_eq, reduceCtorEq, not_false_eq_true]

theorem within_settle (k : Kind) (d : JoinState A) : (settle k d).within k = true := by
  cases d <;> first | exact within_leave k | (cases k <;> rfl)

/-- The swap gives the descriptor up unless it finds the handle gone. -/
theorem after_settle [DecidableEq A] (k : Kind) (d : JoinState A) :
    (settle k d).after = (d != .detached) := by
  cases d <;> first | exact after_leave k | rfl

theorem settle_ne_done {d : JoinState A} : settle .async d ≠ .done true := by
  cases d <;> simp [settle, Kind.leave]

variable [DecidableEq V] [DecidableEq A] {E : Encoding V P A} {s : State V P A}

/-- A step of the task from a point where it may touch the descriptor, to one
    that is not the end of an async task. -/
theorem ExitInv.task (h : ExitInv s) {a : Action V P A} {t : TaskPc A} (ht : s.task = t)
    (hk : (effect E s a).kind = s.kind)
    (hpc : (effect E s a).task.within s.kind = true)
    (hg : (effect E s a).gaveUp = (effect E s a).task.after)
    (hstart : t ≠ .done true) (htouch : a.touches = true → t.after = false)
    (hend : s.kind = .async → (effect E s a).task ≠ .done true) : ExitInv (next E s a) where
  within := by
    show (effect E s a).task.within (effect E s a).kind = true
    rw [hk]
    exact hpc
  gaveUp := hg
  late := by
    have hlate : s.late = false := by
      cases hl : s.late with
      | false => rfl
      | true => exact absurd (ht.symm.trans (h.late.mp hl).2) hstart
    have hquiet : (a.touches && s.gaveUp) = false := by
      rw [h.gaveUp, ht]
      cases ha : a.touches with
      | false => rfl
      | true => rw [htouch ha]; rfl
    show (s.late || (a.touches && s.gaveUp)) = true ↔
      (effect E s a).kind = .async ∧ (effect E s a).task = .done true
    rw [hlate, hquiet, hk]
    exact ⟨fun hf => (nomatch hf), fun hd => absurd hd.2 (hend hd.1)⟩

/-- A step of the handle. -/
theorem ExitInv.handle (h : ExitInv s) {a : Action V P A} (hk : (effect E s a).kind = s.kind)
    (ht : (effect E s a).task = s.task) (hg : (effect E s a).gaveUp = s.gaveUp)
    (htouch : a.touches = false) : ExitInv (next E s a) where
  within := by
    show (effect E s a).task.within (effect E s a).kind = true
    rw [hk, ht]
    exact h.within
  gaveUp := by
    show (effect E s a).gaveUp = (effect E s a).task.after
    rw [hg, ht]
    exact h.gaveUp
  late := by
    show (s.late || (a.touches && s.gaveUp)) = true ↔
      (effect E s a).kind = .async ∧ (effect E s a).task = .done true
    rw [htouch, hk, ht, Bool.false_and, Bool.or_false]
    exact h.late

/-- The end of a completing pass: the waker is dropped. -/
theorem ExitInv.dropWaker (h : ExitInv s) (ht : s.task = .dropWaker true) :
    ExitInv (next E s (.dropWaker true)) where
  within := rfl
  gaveUp := by
    have hg := h.gaveUp
    rw [ht] at hg
    exact hg
  late := by
    have hw := h.within
    have hg := h.gaveUp
    rw [ht] at hw hg
    have hk : s.kind = .async := eq_of_beq hw
    have htouch : (s.late || (true && s.gaveUp)) = true := by rw [hg, TaskPc.after]; simp
    exact ⟨fun _ => ⟨hk, rfl⟩, fun _ => htouch⟩

theorem exit_handoffLoad (h : ExitInv s) (hg : s.task = .handoff) :
    ExitInv (next E s .handoffLoad) := by
  have hw := h.within
  have hu := h.gaveUp
  rw [hg] at hw hu
  have hk : s.kind = .stackful := eq_of_beq hw
  cases hd : E.decode s.word <;>
    exact h.task hg (by simp only [effect, hd]) (by simp only [effect, hd, hk]; rfl)
      (by simp only [effect, hd]; exact hu) (by simp) (fun _ => rfl) (by simp [effect, hd])

theorem exit_abandonedLoad (h : ExitInv s) (hg : s.task = .abandoned) :
    ExitInv (next E s .abandonedLoad) := by
  have hw := h.within
  have hu := h.gaveUp
  rw [hg] at hw hu
  have hk : s.kind = .stackful := eq_of_beq hw
  by_cases hd : s.word = E.encode .detached
  · exact h.task hg (by simp only [effect, if_pos hd]) (by simp only [effect, if_pos hd, hk]; rfl)
      (by simp only [effect, if_pos hd]; exact hu) (by simp) (fun _ => rfl)
      (by simp [effect, if_pos hd])
  · exact h.task hg (by simp only [effect, if_neg hd]) (by simp only [effect, if_neg hd, hk]; rfl)
      (by simp only [effect, if_neg hd]; exact hu) (by simp) (fun _ => rfl)
      (by simp [effect, if_neg hd])

theorem exit_next {a : Action V P A} (h : ExitInv s) (hg : guard E s a) :
    ExitInv (next E s a) := by
  have hw := h.within
  have hu := h.gaveUp
  -- The task has given the descriptor up after the store of `FINISHED`, or the swap that is the
  -- last.
  cases a with
  | begin | park =>
      rw [hg] at hu
      exact h.task hg rfl (by cases s.kind <;> rfl) hu (by simp) (fun _ => rfl) (by simp [effect])
  | pending =>
      rw [hg.1] at hu
      exact h.task hg.1 rfl (by simp only [effect, hg.2]; rfl) hu (by simp) (fun _ => rfl)
        (by simp [effect])
  | complete =>
      rw [hg] at hu
      -- The last poll stores the result before it gives anything up.
      refine h.task hg rfl (within_exit s.kind) ?_ (by simp) (fun _ => rfl) ?_
      · exact hu.trans (after_exit s.kind).symm
      · intro hk
        simp [effect, hk, Kind.exit]
  | handoffLoad => exact exit_handoffLoad h hg
  | abandonedLoad => exact exit_abandonedLoad h hg
  | write j =>
      rw [hg] at hu hw
      cases j with
      | none =>
          exact h.task hg rfl (by cases s.kind <;> rfl) hu (by simp) (fun _ => rfl)
            (by simp [effect])
      | some j => exact h.task hg rfl hw hu (by simp) (fun _ => rfl) (by simp [effect])
  | commitFinished j =>
      exact h.task hg rfl (by cases s.kind <;> rfl) rfl (by simp) (fun _ => rfl)
        (by simp [effect])
  | swap =>
      refine h.task hg rfl (within_settle _ _) (after_settle _ _).symm (by simp) (fun _ => rfl) ?_
      intro hk
      simp only [effect, hk]
      exact settle_ne_done
  | resume j | wake j | claim j =>
      rw [hg] at hu
      refine h.task hg rfl (within_leave _) (hu.trans (after_leave _).symm) (by simp)
        (fun hc => by cases hc) ?_
      intro hk
      simp only [effect, hk]
      exact leave_async_ne_done
  | dropResult p =>
      rw [hg] at hu hw
      cases p <;> exact h.task hg rfl hw hu (by simp) (fun _ => rfl) (by simp [effect])
  | free p =>
      rw [hg] at hw
      cases p with
      | false => exact h.task hg rfl hw rfl (by simp) (fun _ => rfl) (by simp [effect])
      | true =>
          refine h.task hg rfl (within_leave _) (after_leave _).symm (by simp) (fun _ => rfl) ?_
          intro hk
          simp only [effect, hk]
          exact leave_async_ne_done
  | dropWaker r =>
      rw [hg] at hu hw
      cases r with
      | false => exact h.task hg rfl hw hu (by simp) (fun _ => rfl) (by simp [effect])
      | true => exact h.dropWaker hg
  | isFinished j | load op | loadWaker =>
      by_cases hf : s.word = E.encode .finished <;>
        exact h.handle (by simp only [effect, hf, if_true, if_false])
          (by simp only [effect, hf, if_true, if_false])
          (by simp only [effect, hf, if_true, if_false]) rfl
  | exchange op cur spurious =>
      refine h.handle ?_ ?_ ?_ rfl <;> simp only [effect] <;> split_ifs <;> rfl
  | join j | await j | awaitForeign | abandon | box cur b | unbox b | dropReplaced b | take
  | reclaim => exact h.handle rfl rfl rfl rfl

omit [DecidableEq A] [DecidableEq V] in
theorem exit_init (h : init E s) : ExitInv s := by
  rcases h with ⟨-, ht, -, -, -, -, -, -, -, -, hg, hl⟩
  refine ⟨?_, ?_, ?_⟩
  · rw [ht]
    cases s.kind <;> rfl
  · rw [hg, ht]
    rfl
  · rw [hl, ht]
    simp

theorem exit_reachable (hr : (system E).Reachable s) : ExitInv s :=
  hr.induct (fun _ => exit_init) (fun _ _ h hg => exit_next h hg)

/-- A thread's exit touches nothing that it has given up. -/
theorem thread_exit (hr : (system E).Reachable s) (hk : s.kind = .stackful) : s.late = false := by
  have h := exit_reachable hr
  cases hl : s.late with
  | false => rfl
  | true =>
      have hka := (h.late.mp hl).1
      rw [hk] at hka
      cases hka

/-- Only completing leads out of the passes. -/
theorem exiting_next {a : Action V P A} (hg : guard E s a) (ha : a ≠ .complete) :
    (next E s a).task.exiting = s.task.exiting := by
  show (effect E s a).task.exiting = s.task.exiting
  -- In the other actions the task stays on its side of `complete`.
  cases a with
  | complete => exact absurd rfl ha
  | begin | park => rw [hg]; rfl
  | pending => rw [hg.1]; rfl
  | handoffLoad =>
      rw [hg]
      cases hd : E.decode s.word <;> simp only [effect, hd] <;> rfl
  | abandonedLoad =>
      rw [hg]
      simp only [effect]
      split <;> rfl
  | write j => rw [hg]; cases j <;> rfl
  | commitFinished j | dropResult p => rw [hg]; rfl
  | swap =>
      rw [hg]
      simp only [effect]
      cases E.decode s.word <;> first | rfl | (cases s.kind <;> rfl)
  | resume j | wake j | claim j =>
      rw [hg]
      simp only [effect]
      cases s.kind <;> rfl
  | free p =>
      rw [hg]
      cases p with
      | false => rfl
      | true => simp only [effect]; cases s.kind <;> rfl
  | dropWaker r => rw [hg]; cases r <;> rfl
  | isFinished j | load op | loadWaker => simp only [effect]; split <;> rfl
  | exchange op cur spurious => simp only [effect]; split_ifs <;> rfl
  | join j | await j | awaitForeign | abandon | box cur b | unbox b | dropReplaced b | take
  | reclaim => rfl

theorem exiting_complete : (next E s .complete).task.exiting = true := by
  show (s.kind.exit : TaskPc A).exiting = true
  cases s.kind <;> rfl

/-- There is no way back. -/
theorem exiting_run (as : List (Action V P A)) :
    ∀ s : State V P A, s.task.exiting = true → (system E).Legal s as →
      ((system E).run s as).task.exiting = true := by
  induction as with
  | nil => exact fun s hs _ => hs
  | cons a as ih =>
      intro s hs hl
      refine ih _ ?_ hl.2
      by_cases ha : a = .complete
      · rw [ha]
        exact exiting_complete
      · exact (exiting_next hl.1 ha).trans hs

/-- A run that ends outside the exit has not completed the task. -/
theorem along_of_not_exiting (as : List (Action V P A)) :
    ∀ s : State V P A, (system E).Legal s as → ((system E).run s as).task.exiting = false →
      (system E).Along (fun _ a => a ≠ .complete) s as := by
  induction as with
  | nil => exact fun _ _ _ => trivial
  | cons a as ih =>
      intro s hl he
      refine ⟨fun ha => ?_, ih _ hl.2 he⟩
      have hex := exiting_run as _ (exiting_complete (E := E) (s := s)) (by rw [← ha]; exact hl.2)
      rw [← ha] at hex
      exact absurd (hex.symm.trans he) (by simp)

theorem kind_next (s : State V P A) (a : Action V P A) : (next E s a).kind = s.kind := by
  show (effect E s a).kind = s.kind
  cases a with
  | handoffLoad => simp only [effect]; split <;> rfl
  | abandonedLoad | isFinished j | load op | loadWaker => simp only [effect]; split <;> rfl
  | exchange op cur spurious => simp only [effect]; split_ifs <;> rfl
  | write j => cases j <;> rfl
  | free p | dropWaker p => cases p <;> rfl
  | _ => rfl

theorem kind_run (as : List (Action V P A)) :
    ∀ s : State V P A, ((system E).run s as).kind = s.kind := by
  induction as with
  | nil => exact fun _ => rfl
  | cons a as ih => exact fun s => (ih _).trans (kind_next s a)

/-- A pass keeps away from a descriptor it has given up exactly when it does
    not complete the task. -/
theorem async_exit {s : State V P A} {as : List (Action V P A)} (hi : init E s)
    (hk : s.kind = .async) (hl : (system E).Legal s as)
    (hend : ((system E).run s as).task = .idle ∨ ∃ p, ((system E).run s as).task = .done p) :
    (system E).Throughout (fun s => s.late = false) s as ↔
      (system E).Along (fun _ a => a ≠ .complete) s as := by
  constructor
  · intro hq
    apply along_of_not_exiting as s hl
    rcases hend with hidle | ⟨p, hdone⟩
    · rw [hidle]
      rfl
    · -- The waker was dropped on the way to the end.
      have h := exit_reachable ((system E).reachable_run as s hi hl)
      have hkind := (kind_run (E := E) as s).trans hk
      have hw := h.within
      have hq := (system E).throughout_run as s hq
      rw [hdone, hkind] at hw
      cases p with
      | false => cases hw
      | true => exact absurd (hq.symm.trans (h.late.mpr ⟨hkind, hdone⟩)) (by simp)
  · refine (system E).throughout_of_along (I := fun s => ExitInv s ∧ s.task.exiting = false)
      ?_ ?_ as s ⟨exit_init hi, ?_⟩ hl
    · intro s h
      cases hlate : s.late with
      | false => rfl
      | true =>
          rw [(h.1.late.mp hlate).2] at h
          exact absurd h.2 (by simp [TaskPc.exiting])
    · exact fun s a h hg hc => ⟨exit_next h.1 hg, (exiting_next hg hc).trans h.2⟩
    · rw [hi.2.1]
      rfl

/-- The future is ready at its first poll. Before the worker has dropped its
    waker, the handle is awaited elsewhere, takes the result and frees the
    descriptor. -/
def readyRun : List (Action Word Ptr Word) :=
  [.begin, .complete, .write none, .swap, .awaitForeign, .loadWaker, .take, .reclaim,
    .dropWaker true]

theorem ready_touches_freed :
    ¬ ∀ (s : State Word Ptr Word) (as : List (Action Word Ptr Word)), init wordEncoding s →
      s.kind = .async → (system wordEncoding).Legal s as →
      (system wordEncoding).Throughout (fun s => s.late = false) s as := by
  intro h
  have hq := h (start .async) readyRun (init_start .async) rfl (by decide)
  exact absurd ((system wordEncoding).throughout_run _ _ hq) (by decide)

/-- A future that is polled once and is not ready. -/
def pendingRun : List (Action Word Ptr Word) :=
  [.begin, .pending, .dropWaker false, .park]

theorem async_exit_pending :
    (system wordEncoding).Throughout (fun s => s.late = false) (start .async) pendingRun :=
  (async_exit (init_start .async) rfl (by decide) (.inl (by decide))).mpr
    ⟨by decide, by decide, by decide, by decide, trivial⟩

end Join

end Cmpth

import Cmpth.Core.Places
import Cmpth.Fork.Parallel
import Cmpth.Join.Unwind

/-!
# The Tokens of the Threads

Where the one token of each thread is, and what the join word of a call that
only ever joins can be.

A thread that can run on has its token in a run queue, on a worker, among those
that wait, in the hands of a caller that has popped it, or in the join word of
the call it waits for. A thread that is exiting keeps its worker to the end.

## Main definitions

* `Spot`, `tokens`: The places of a token, and the tokens that are there.
* `Sync`: The join has been used for `join` alone.

## Theorems

* `tokens_set`, `tokens_push`, `tokens_run`: What each part of a step moves.
* `tokens_hold`: Rewrites the tokens of a record that holds others.
* `tokens_wait`: Rewrites the tokens of a record that waits for others.
* `tokens_set_same`: A record that holds and waits for the same threads has the same tokens.
* `tokens_queue`, `tokens_parked`: A store to the queues, and to those that wait.
* `sync_built`, `sync_begin`: A join that has just been built is such.
* `ofHandle_of_mine`: The steps that `join` is made of are steps of the handle.
* `mine_cases`: The accesses of `join`.
* `written_handle`: The handle's owner writes no result.
* `sync_handle`, `sync_task`: Either side of a join keeps it such.
* `written_task`: Only writing the result writes it.
* `handle_same`: Only resuming the joiner gives it the handle back.
* `done_of_taken`: Who takes the result finds the thread gone.
* `parked_of_resume`: What is resumed is the joiner that waits.
-/

namespace Cmpth

namespace Fork

open Join (TaskPc HandlePc JoinState)

/-- A place for a token. -/
inductive Spot (K W : Type*) where
  | queued (w : W)
  | on (w : W)
  | parked
  | held (k : K)
  | joining (k : K)
  deriving DecidableEq, Repr

variable {K W D C R : Type*}

/-- What the caller has popped. -/
def Call.held (c : Call W D C R) : List D :=
  match c.stage with
  | .popped _ d => [d]
  | _ => []

/-- The thread that waits for the call's `b`. -/
def Call.waiting (c : Call W D C R) : List D :=
  match c.join.handle with
  | .parked j => [j]
  | _ => []

/-- The tokens in each place. -/
def tokens (s : State K W D C R) : Spot K W → List D
  | .queued w => s.queue w
  | .on w => (s.cur w).toList
  | .parked => s.parked
  | .held k => (s.call k).held
  | .joining k => (s.call k).waiting

section Tokens

variable [DecidableEq K] [DecidableEq W]

theorem tokens_set (s : State K W D C R) (k : K) (c : Call W D C R) :
    tokens (s.set k c) =
      Function.update (Function.update (tokens s) (.held k) c.held) (.joining k) c.waiting := by
  funext x
  -- A call's record shows in two places only: what it holds and what it waits for.
  cases x with
  | queued w | on w | parked =>
      rw [Function.update_of_ne (by simp), Function.update_of_ne (by simp)]
      rfl
  | held k' =>
      rw [Function.update_of_ne (by simp)]
      by_cases hk : k' = k
      · subst hk
        rw [Function.update_self]
        simp only [tokens, State.set, Function.update_self]
      · rw [Function.update_of_ne (by simpa using hk)]
        simp only [tokens, State.set, Function.update_of_ne hk]
  | joining k' =>
      by_cases hk : k' = k
      · subst hk
        rw [Function.update_self]
        simp only [tokens, State.set, Function.update_self]
      · rw [Function.update_of_ne (by simpa using hk), Function.update_of_ne (by simp)]
        simp only [tokens, State.set, Function.update_of_ne hk]

/-- Rewrites the tokens of a record that holds others. -/
theorem tokens_hold {s : State K W D C R} {k : K} {c : Call W D C R}
    (hw : c.waiting = (s.call k).waiting) :
    tokens (s.set k c) = Function.update (tokens s) (.held k) c.held := by
  have hsame : Function.update (tokens s) (.held k) c.held (.joining k) = (s.call k).waiting :=
    Function.update_of_ne (by simp) ..
  rw [tokens_set, hw, ← hsame, Function.update_eq_self]

/-- Rewrites the tokens of a record that waits for others. -/
theorem tokens_wait {s : State K W D C R} {k : K} {c : Call W D C R}
    (hh : c.held = (s.call k).held) :
    tokens (s.set k c) = Function.update (tokens s) (.joining k) c.waiting := by
  have hsame : tokens s (.held k) = (s.call k).held := rfl
  rw [tokens_set, hh, ← hsame, Function.update_eq_self]

/-- A record that holds and waits for the same threads has the same tokens. -/
theorem tokens_set_same {s : State K W D C R} {k : K} {c : Call W D C R}
    (hh : c.held = (s.call k).held) (hw : c.waiting = (s.call k).waiting) :
    tokens (s.set k c) = tokens s := by
  have hsame : tokens s (.held k) = (s.call k).held := rfl
  rw [tokens_hold hw, hh, ← hsame, Function.update_eq_self]

theorem tokens_queue (s : State K W D C R) (w : W) (l : List D) :
    tokens { s with queue := Function.update s.queue w l } =
      Function.update (tokens s) (.queued w) l := by
  funext x
  cases x with
  | queued w' =>
      by_cases hw : w' = w
      · subst hw
        rw [Function.update_self]
        exact Function.update_self ..
      · rw [Function.update_of_ne (by simpa using hw)]
        exact Function.update_of_ne hw ..
  | on w' | parked | held k | joining k =>
      rw [Function.update_of_ne (by simp)]
      rfl

theorem tokens_push (s : State K W D C R) (w : W) (d : D) :
    tokens (s.push w d) = Function.update (tokens s) (.queued w) (d :: tokens s (.queued w)) :=
  tokens_queue s w _

theorem tokens_run (s : State K W D C R) (w : W) (o : Option D) :
    tokens (s.run w o) = Function.update (tokens s) (.on w) o.toList := by
  funext x
  cases x with
  | on w' =>
      by_cases hw : w' = w
      · subst hw
        rw [Function.update_self]
        simp only [tokens, State.run, Function.update_self]
      · rw [Function.update_of_ne (by simpa using hw)]
        simp only [tokens, State.run, Function.update_of_ne hw]
  | queued w' | parked | held k | joining k =>
      rw [Function.update_of_ne (by simp)]
      rfl

theorem tokens_parked (s : State K W D C R) (l : List D) :
    tokens { s with parked := l } = Function.update (tokens s) .parked l := by
  funext x
  cases x with
  | parked =>
      rw [Function.update_self]
      rfl
  | queued w | on w | held k | joining k =>
      rw [Function.update_of_ne (by simp)]
      rfl

end Tokens

section Sync

variable [DecidableEq D] {j : Join.State (JoinState D) D D} {a : Join.Action (JoinState D) D D}

/-- The word of a call whose handle is only joined. -/
def syncWord : JoinState D → Bool
  | .running | .finished | .syncJoiner _ => true
  | .detached | .asyncWaker _ | .asyncJoiner _ => false

/-- The places of a handle that is only joined. -/
def syncHandle : HandlePc (JoinState D) D → Bool
  | .held | .isFinished _ | .load (.join _) | .exchange (.join _) _ | .parked _ | .take
  | .reclaim | .gone => true
  | _ => false

/-- The places of a thread whose handle is only joined. -/
def syncTask : TaskPc D → Bool
  | .idle | .running | .handoff | .abandoned | .write _ | .commit _ | .swap | .resume _
  | .done true => true
  | _ => false

/-- The join has been used for `join` alone. -/
structure Sync (j : Join.State (JoinState D) D D) : Prop where
  kind : j.kind = .stackful
  word : syncWord j.word = true
  handle : syncHandle j.handle = true
  task : syncTask j.task = true

omit [DecidableEq D] in
theorem sync_built : Sync (built D) :=
  ⟨rfl, rfl, rfl, rfl⟩

/-- The steps that `join` is made of are steps of the handle. -/
theorem ofHandle_of_mine {u : D} (ha : mine u a = true) :
    Join.Call.ofHandle .stackful a = true := by
  unfold mine at ha
  split at ha <;> first | rfl | cases ha

theorem mine_cases {u : D} (ha : mine u a = true) :
    a = .join u ∨ a = .isFinished u ∨ a = .load (.join u) ∨
      (∃ cur spurious, a = .exchange (.join u) cur spurious) ∨ a = .take ∨ a = .reclaim := by
  unfold mine at ha
  split at ha
  all_goals first
    | (cases ha; done)
    | (have hu := eq_of_beq ha
       subst hu
       simp)
    | simp

/-- The handle's owner writes no result. -/
theorem written_handle {u : D} (ha : mine u a = true) :
    (Join.next (words D) j a).written = j.written := by
  change (Join.effect (words D) j a).written = j.written
  rcases mine_cases ha with rfl | rfl | rfl | ⟨cur, spurious, rfl⟩ | rfl | rfl
  · rfl
  · simp only [Join.effect]
    split <;> rfl
  · simp only [Join.effect]
    split <;> rfl
  · simp only [Join.effect]
    split
    · rfl
    · split <;> rfl
  · rfl
  · rfl

theorem sync_handle {u : D} (h : Sync j) (ha : mine u a = true)
    (hg : Join.guard (words D) j a) : Sync (Join.next (words D) j a) := by
  have ht : (Join.next (words D) j a).task = j.task := Join.Call.task_handle (ofHandle_of_mine ha)
  have hk : (Join.next (words D) j a).kind = j.kind := Join.Call.kind_next
  refine ⟨hk.trans h.kind, ?_, ?_, by rw [ht]; exact h.task⟩
  · -- The word becomes that of a joiner, or stays.
    change syncWord (Join.effect (words D) j a).word = true
    unfold mine at ha
    split at ha
    · exact h.word
    · simp only [Join.effect]
      split <;> exact h.word
    · simp only [Join.effect]
      split <;> exact h.word
    · simp only [Join.effect]
      split
      · rfl
      · split <;> exact h.word
    · exact h.word
    · exact h.word
    · cases ha
  · change syncHandle (Join.effect (words D) j a).handle = true
    unfold mine at ha
    split at ha
    · rfl
    · simp only [Join.effect]
      split <;> rfl
    · simp only [Join.effect]
      split <;> rfl
    · simp only [Join.effect]
      split
      · rfl
      · split <;> rfl
    · rfl
    · rfl
    · cases ha

theorem sync_task (h : Sync j) (hj : Join.Inv (words D) j) (ha : Join.Call.ofTask a = true)
    (hg : Join.guard (words D) j a) : Sync (Join.next (words D) j a) := by
  have hk : (Join.next (words D) j a).kind = j.kind := Join.Call.kind_next
  have hinv : Join.Inv (words D) (Join.next (words D) j a) := Join.inv_next hj hg
  have ht := h.task
  refine ⟨hk.trans h.kind, ?_, ?_, ?_⟩
  · -- The word becomes finished, or stays.
    change syncWord (Join.effect (words D) j a).word = true
    cases a with
    | handoffLoad | abandonedLoad =>
        simp only [Join.effect]
        split <;> exact h.word
    | write x | free x | dropWaker x => cases x <;> exact h.word
    | pending | complete | resume t | wake t | claim t | dropResult p => exact h.word
    | commitFinished t | swap => rfl
    | _ => cases ha
  · -- A thread moves the handle only when it resumes the joiner.
    change syncHandle (Join.effect (words D) j a).handle = true
    cases a with
    | handoffLoad | abandonedLoad =>
        simp only [Join.effect]
        split <;> exact h.handle
    | write x | free x | dropWaker x => cases x <;> exact h.handle
    | resume t =>
        have hh := h.handle
        simp only [Join.effect]
        split
        · rfl
        · exact hh
    | pending | complete | commitFinished t | swap | wake t | claim t | dropResult p =>
        exact h.handle
    | _ => cases ha
  · -- The word that was read has no async waiter, and was not finished before.
    obtain ⟨st, hat⟩ := hinv
    have hfit := hat.fits
    change syncTask (Join.effect (words D) j a).task = true
    change Join.Fits (words D) st (Join.effect (words D) j a).handle
      (Join.effect (words D) j a).task.phase at hfit
    have hw := h.word
    cases a with
    | pending =>
        exact absurd (h.kind.symm.trans hg.2) (by simp)
    | complete =>
        simp only [Join.effect, h.kind]
        rfl
    | handoffLoad =>
        simp only [Join.effect]
        split <;> rfl
    | abandonedLoad =>
        simp only [Join.effect]
        split
        · rename_i hdet
          rw [show j.word = .detached from hdet] at hw
          cases hw
        · rfl
    | write x => cases x <;> rfl
    | commitFinished t => rfl
    | swap =>
        simp only [Join.effect, h.kind] at hfit ⊢
        change Join.Fits _ _ _ (Join.settle .stackful j.word).phase at hfit
        change syncTask (Join.settle .stackful j.word) = true
        cases hword : j.word with
        | running | syncJoiner t => rfl
        | finished =>
            rw [hword] at hfit
            exact hfit.elim
        | detached | asyncWaker t | asyncJoiner t =>
            rw [hword] at hw
            cases hw
    | resume t =>
        simp only [Join.effect, h.kind]
        rfl
    | wake t | claim t | dropResult p | free p | dropWaker p =>
        rw [show j.task = _ from hg] at ht
        cases ht
    | _ => cases ha

/-- Only writing the result writes it. -/
theorem written_task (ha : Join.Call.ofTask a = true) (hw : ∀ x, a ≠ .write x) :
    (Join.next (words D) j a).written = j.written := by
  change (Join.effect (words D) j a).written = j.written
  cases a with
  | write x => exact absurd rfl (hw x)
  | handoffLoad | abandonedLoad =>
      simp only [Join.effect]
      split <;> rfl
  | free x | dropWaker x => cases x <;> rfl
  | pending | complete | commitFinished t | swap | resume t | wake t | claim t | dropResult p => rfl
  | _ => cases ha

/-- Only resuming the joiner gives it the handle back. -/
theorem handle_same (ha : Join.Call.ofTask a = true) (hr : ∀ t, a ≠ .resume t) :
    (Join.next (words D) j a).handle = j.handle := by
  change (Join.effect (words D) j a).handle = j.handle
  cases a with
  | resume t => exact absurd rfl (hr t)
  | handoffLoad | abandonedLoad =>
      simp only [Join.effect]
      split <;> rfl
  | write x | free x | dropWaker x => cases x <;> rfl
  | pending | complete | commitFinished t | swap | wake t | claim t | dropResult p => rfl
  | _ => cases ha

theorem sync_begin (h : Sync j) : Sync (Join.next (words D) j .begin) :=
  ⟨h.kind, h.word, h.handle, rfl⟩

/-- Once a joiner takes the result or frees the descriptor, the thread is
    gone. -/
theorem done_of_taken (h : Sync j) (hj : Join.Inv (words D) j)
    (hh : j.handle = .take ∨ j.handle = .reclaim) : j.task = .done true := by
  obtain ⟨st, hat⟩ := hj
  have hfit := hat.fits
  have ht := h.task
  -- Every earlier place of the task has the handle still waiting.
  cases htask : j.task with
  | done p =>
      rw [htask] at ht
      cases p with
      | true => rfl
      | false => cases ht
  | idle | running | handoff | abandoned | swap | park =>
      rw [htask] at hfit
      rcases hh with hh | hh <;> rw [hh] at hfit <;> exact hfit.2.elim
  | write x =>
      rw [htask] at hfit
      cases x with
      | none => rcases hh with hh | hh <;> rw [hh] at hfit <;> exact hfit.2.elim
      | some t =>
          obtain ⟨p, -, hp, -⟩ := hfit
          rcases hh with hh | hh <;> rw [hh] at hp <;> cases hp
  | commit t | resume t =>
      rw [htask] at hfit
      obtain ⟨p, -, hp, -⟩ := hfit
      rcases hh with hh | hh <;> rw [hh] at hp <;> cases hp
  | wake t | claim t | dropResult p | free p | dropWaker p | doubleExit =>
      rw [htask] at ht
      cases ht

/-- The thread that is resumed is the one that waits in `join`. -/
theorem parked_of_resume (hj : Join.Inv (words D) j) {t : D} (ht : j.task = .resume t) :
    j.handle = .parked t := by
  obtain ⟨st, hat⟩ := hj
  have hfit := hat.fits
  rw [ht] at hfit
  obtain ⟨p, -, hp, he⟩ := hfit
  rw [hp]
  exact congrArg _ he

end Sync

end Fork

end Cmpth

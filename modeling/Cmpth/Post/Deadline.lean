import Cmpth.Post.Latency
import Cmpth.Post.Serve

/-!
# The Latency of `QueuePostDelegator`

The delegator, the duty that polls it when it is asked to, and a clock that does not go
back. The polls are serves, and nobody else serves; there is one poll at a time, early or
late.

A post that finds the list empty asks for a poll, and a poll that leaves something in the
list asks again; each of them replaces the deadline. The posts it leaves uncovered are
those that completed since it began, unless it is a poll that found the consumer locked.

## Main definitions

* `Timed`, `timed`: The delegator, its duty and the clock.
* `Held`: Where the slots of the posts that have returned are.
* `TimedInv`: The invariant.

## Theorems

* `awaited_turn`: A step of a server, of whose own list the claim is known.
* `awaited_self`: The server goes on with the slots it has still to read.
* `awaited_next`, `held_next`: What a server takes it reads.
* `finished_le`, `flagged_congr`, `willAsk_of_returned`: What is finished, flagged, and going to be
  asked for.
* `serveNext_frame`: A server changes no producer's place and no mark.
* `seen_next`: What a server has read it has read.
* `finished_setPost`: A step of a producer to another place in `post`.
* `finished_of_ne`: A producer that is about to read or write the list, or to ask, has not returned.
* `flagged_next`: A flag that is set stays set until a server passes the slot.
* `awaited_of_collects`: Whoever has cleared the flag of a slot reads its mark next.
* `awaited_of_drains`: What a server has taken it reads.
* `finished_next`: A step completes the posts whose slots are in the list, or that are being read.
* `Held.awaited`: With nothing in the list, whatever a server has not read it is going to read.
* `serve_next`: A thread that is in a poll or a locked section moves by its own steps.
* `past_next`: A poll gets past that point with an empty list, or by finding the consumer locked.
* `willAsk_next`: Only a poll is going to ask.
* `deadline_next`: The deadline is set by an ask, and cleared by a poll.
* `asking_next`: Whoever is about to ask has listed its slot in an empty list.
* `posting_next`: A post begins where the producer has none.
* `covers_act`: A step of the delegator covers the posts of before, and its own are recent.
* `covers_none`: With nothing in the list there is nothing that is not about to be read.
* `note_poll`, `note_blocked`, `note_locked`: What a step notes of a poll.
* `timedInv_init`, `timedInv_act`, `timedInv_ran`, `timedInv_reachable`: The invariant, at the
  beginning and after the steps of each kind.
* `fits_act`: An ask renews, and what completed before the asker began is covered.
* `timedInv_run`: Nobody else is going to ask while a poll begins.
* `timedInv_next`: Every step keeps the invariant.
* `TimedInv.renewed`: Between operations, the due time is the latency after the last ask, and what
  had completed before the asker began is covered, unless it found the consumer locked.
* `renewed_reachable`: For both delegators, the due time counts from the last renewal.
* `quiet_backedOff`, `quiet_lockedOut`, `reachable_backedOff`, `reachable_lockedOut`,
  `renewed_late`: Two states in which a post waits for longer than the latency.
* `not_prompt`: Neither serves every post within the latency.
-/

namespace Cmpth

namespace Post

open Duty (Inner DutyPlace NEVER ns)

namespace Queue

/-- `postBegan` has when each producer's last post began, `doneAt` when its posts
    completed, `renewal` the last poll or post that asked. -/
structure Timed (P T : Type*) where
  queue : State P T
  inner : Inner
  poll : Option (Poll T)
  clock : ℕ
  postBegan : P → ℕ
  doneAt : P → ℕ → ℕ
  renewal : Renewal

/-- A step, with the reading of the clock at it. -/
inductive TimedAction (P T : Type*) where
  /-- A step of a post, of a locked section, or of a poll. -/
  | act (a : Action P T) (now : ℕ)
  /-- `run` clears the deadline, and the poll begins. -/
  | run (t : T) (now : ℕ)
  /-- The poll has returned; `run` stores the time and the period. -/
  | ran (now : ℕ)

section

variable {P T : Type*} [DecidableEq P] [DecidableEq T]

/-- The last of the producer's posts that has returned. -/
def State.finished (s : State P T) (p : P) : ℕ :=
  if s.post p = .idle then s.mark p else s.mark p - 1

/-- What a step tells of the poll: that it finds the consumer locked, or whether there is
    anything to serve. -/
def State.note (s : State P T) (a : Action P T) (now : ℕ) (q : Poll T) : Poll T :=
  if a = .step q.thread now then
    match s.serve q.thread with
    | .wanting _ | .trying _ => { q with blocked := s.busy }
    | .serving _ => { q with did := !s.batch.isEmpty }
    | .idle | .polling | .locked _ | .draining _ _ | .unlisting _ _ _ | .collecting _ _ _
      | .unlocking _ | .checking | .asking | .spinning | .spinningTry | .inside => q
  else q

/-- The renewal, when a post or a poll asks. -/
def Timed.renew (s : Timed P T) : Action P T → ℕ → Renewal
  | .postStep p _ _, now =>
      if s.queue.post p = .asking then ⟨s.postBegan p, now, false⟩ else s.renewal
  | .step t _, now =>
      match s.poll with
      | some q => if s.queue.serve t = .asking then ⟨q.began, now, q.blocked⟩ else s.renewal
      | none => s.renewal
  | .post _, _ | .poll _, _ | .serveNow _, _ | .withLock _, _ => s.renewal

/-- Whoever is in `run` starts no locked section, and an ask reads the clock. -/
def Timed.free (s : Timed P T) : Action P T → ℕ → Prop
  | .serveNow _, _ | .poll _, _ => False
  | .withLock t, _ => ∀ q ∈ s.poll, q.thread ≠ t
  | .postStep _ reading _, now | .step _ reading, now => reading = now
  | .post _, _ => True

/-- When an action can be taken: time does not go back, and polls are made one at a time. -/
def timedGuard (s : Timed P T) : TimedAction P T → Prop
  | .act a now => s.clock ≤ now ∧ s.free a now ∧ guard s.queue a
  | .run t now => s.clock ≤ now ∧ s.poll = none ∧ s.queue.serve t = .idle
  | .ran now => s.clock ≤ now ∧ ∃ q ∈ s.poll, s.queue.serve q.thread = .idle

/-- What an action does, and what it notes of the poll that is under way. -/
def timedNext (latency : ℕ) (s : Timed P T) : TimedAction P T → Timed P T
  | .act a now =>
      { s with
        queue := next latency s.queue a
        poll := s.poll.map (s.queue.note a now)
        clock := now
        postBegan :=
          match a with
          | .post p => Function.update s.postBegan p now
          | .postStep _ _ _ | .poll _ | .serveNow _ | .withLock _ | .step _ _ => s.postBegan
        doneAt := stamp s.queue.finished (next latency s.queue a).finished now s.doneAt
        renewal := s.renew a now }
  | .run t now =>
      { s with
        queue := next latency s.queue (.poll t)
        poll := some ⟨t, now, false, false⟩
        clock := now }
  | .ran now =>
      match s.poll with
      | none => s
      | some q =>
          { s with
            inner := { Duty.Backoff.run s.inner q.did now with deadline := s.queue.deadline }
            poll := none
            clock := now }

instance (s : Timed P T) : ∀ a now, Decidable (s.free a now)
  | .serveNow _, _ | .poll _, _ => isFalse id
  | .withLock t, _ => inferInstanceAs (Decidable (∀ q ∈ s.poll, q.thread ≠ t))
  | .postStep _ reading _, now | .step _ reading, now =>
      inferInstanceAs (Decidable (reading = now))
  | .post _, _ => isTrue trivial

instance (s : Timed P T) : ∀ a, Decidable (timedGuard s a)
  | .act a now => inferInstanceAs (Decidable (s.clock ≤ now ∧ s.free a now ∧ guard s.queue a))
  | .run t now =>
      inferInstanceAs (Decidable (s.clock ≤ now ∧ s.poll = none ∧ s.queue.serve t = .idle))
  | .ran now =>
      inferInstanceAs
        (Decidable (s.clock ≤ now ∧ ∃ q ∈ s.poll, s.queue.serve q.thread = .idle))

/-- `start`: the duty is registered. -/
def timedInit (latency : ℕ) (place : DutyPlace) (s : Timed P T) : Prop :=
  init s.queue ∧ s.queue.deadline = NEVER ∧
    s.inner = Duty.newInner place s.clock none latency ∧ s.poll = none ∧
    s.renewal = ⟨s.clock, s.clock, false⟩

/-- The delegator, its duty and the clock as a guarded transition system. -/
def timed (latency : ℕ) (place : DutyPlace) : System (Timed P T) (TimedAction P T) where
  init := timedInit latency place
  guard := timedGuard
  next := timedNext latency

instance (latency : ℕ) (place : DutyPlace) (s : Timed P T) (a : TimedAction P T) :
    Decidable ((timed latency place).guard s a) :=
  inferInstanceAs (Decidable (timedGuard s a))

/-- `due` of the duty, whose deadline the delegator sets. -/
def Timed.due (s : Timed P T) : ℕ :=
  { s.inner with deadline := s.queue.deadline }.due

end

section

variable {P T : Type*}

/-- No operation is in flight, and no poll. -/
def Timed.Quiet (s : Timed P T) : Prop :=
  Queue.Quiet s.queue ∧ s.poll = none

/-- The thread is past the point where its poll takes the list, or has seen that it
    cannot. -/
def ServePc.Past : ServePc P → Prop
  | .polling | .wanting _ | .trying _ | .locked _ => False
  | .idle | .draining _ _ | .unlisting _ _ _ | .collecting _ _ _ | .serving _ | .unlocking _
    | .checking | .asking | .spinning | .spinningTry | .inside => True

/-- A server is about to read the mark. -/
def Awaited (s : State P T) (p : P) : Prop :=
  ∃ t l, (s.serve t).Rest s.links l ∧ p ∈ l

/-- The slot's flag is set, and the slot is not about to be listed. -/
def Flagged (s : State P T) (p : P) : Prop :=
  s.queued p = true ∧ ¬ (s.post p).Listing

variable [DecidableEq P]

/-- The slot of a post that has returned and that no server has read is in the list, or
    in the hands of a server. -/
def Held (s : State P T) : Prop :=
  ∀ p, s.seen p < s.finished p → Flagged s p ∨ Awaited s p

/-- The posts that completed before that time are covered, or about to be. -/
def Timed.Covers (s : Timed P T) (began : ℕ) : Prop :=
  Since s.queue.seen s.queue.finished s.doneAt (Awaited s.queue) began

/-- The invariant: whoever asked last, whoever is about to ask, and the poll under way once
    it has taken the list, leave uncovered what completed since they began. -/
structure TimedInv (latency : ℕ) (s : Timed P T) : Prop where
  kept : Kept s.queue
  booked : Booked s.queue
  held : Held s.queue
  mine : ∀ t, (s.queue.serve t).WillAsk → ∃ q, s.poll = some q ∧ q.thread = t
  deadline : s.queue.deadline = NEVER ∨ s.queue.deadline = ns (s.renewal.time + latency)
  past : s.renewal.began ≤ s.renewal.time ∧ s.renewal.time ≤ s.clock
  covers : s.renewal.blocked = true ∨ s.Covers s.renewal.began
  posting : ∀ p, s.queue.post p ≠ .idle → s.postBegan p ≤ s.clock
  asking : ∀ p, s.queue.post p = .asking → s.Covers (s.postBegan p)
  began : ∀ q, s.poll = some q → q.began ≤ s.clock
  poll : ∀ q, s.poll = some q → (s.queue.serve q.thread).Past →
    q.blocked = true ∨ s.Covers q.began

end

section

variable {P T : Type*} [DecidableEq P] [DecidableEq T] {s s' : State P T} {t : T} {latency : ℕ}

omit [DecidableEq P] in
/-- A step of a server, of whose own list the claim is known. -/
theorem awaited_turn {p : P} {pc : ServePc P} {k : ℕ} (h : Awaited s p)
    (hserve : s'.serve = Function.update s.serve t pc) (hnext : s'.nextPending = s.nextPending)
    (hmine : ∀ l, (s.serve t).Rest s.links l → p ∈ l → Awaited s' p ∨ k ≤ s'.seen p) :
    Awaited s' p ∨ k ≤ s'.seen p := by
  rcases h with ⟨t', l, hl, hp⟩
  by_cases ht : t' = t
  · rw [ht] at hl
    exact hmine l hl hp
  · refine .inl ⟨t', l, ?_, hp⟩
    rwa [links_congr hnext, hserve, Function.update_of_ne ht]

omit [DecidableEq P] in
/-- The server goes on with the slots it has still to read. -/
theorem awaited_self {p : P} (pc : ServePc P) {l : List P}
    (hserve : s'.serve = Function.update s.serve t pc) (hnext : s'.nextPending = s.nextPending)
    (hl : pc.Rest s.links l) (hp : p ∈ l) : Awaited s' p := by
  refine ⟨t, l, ?_, hp⟩
  rwa [links_congr hnext, hserve, Function.update_self]

/-- Whoever is about to be read still is after a step, or its mark has been read. -/
theorem awaited_next (latency : ℕ) (hkept : Kept s) {a : Action P T} (hg : guard s a) {p : P}
    (h : Awaited s p) :
    Awaited (next latency s a) p ∨
      (next latency s a).mark p ≤ (next latency s a).seen p := by
  -- Before these steps the thread prepares no serve.
  have hout : ∀ {t pc}, s.serve t = pc → (∀ l, ¬ pc.Rest s.links l) →
      ∀ {s' : State P T} {l k}, (s.serve t).Rest s.links l → p ∈ l →
        Awaited s' p ∨ k ≤ s'.seen p := by
    rintro t _ rfl hx s' l k hl _
    exact absurd hl (hx l)
  cases a with
  | post q => exact .inl h
  | postStep q now spurious =>
      rcases hkept.listed with ⟨l, d, hl⟩
      rcases listed_postNext latency hl q now spurious with ⟨l', hl'⟩
      rcases h with ⟨t, m, hm, hp⟩
      have hserve := (postNext_frame latency s q now spurious).1
      exact .inl ⟨t, m, (rest_post hl hl' hserve t m).mpr hm, hp⟩
  | poll t | serveNow t | withLock t =>
      exact awaited_turn h rfl rfl fun l => hout hg (fun _ => id)
  | step t now =>
      change Awaited (s.serveNext latency t now) p ∨
        (s.serveNext latency t now).mark p ≤ (s.serveNext latency t now).seen p
      unfold State.serveNext
      cases hpc : s.serve t with
      | idle => exact .inl h
      | trying | spinningTry =>
          dsimp only
          split <;> exact awaited_turn h rfl rfl fun l => hout hpc (fun _ => id)
      | polling | wanting | locked | unlocking | checking | asking | spinning | inside =>
          exact awaited_turn h rfl rfl fun l => hout hpc (fun _ => id)
      | draining duty q =>
          cases q with
          | none =>
              refine awaited_turn h rfl rfl fun l hl hp => ?_
              rw [hpc] at hl
              rw [Chain.eq_nil hl] at hp
              cases hp
          | some slot =>
              refine awaited_turn h rfl rfl fun l hl hp => .inl ?_
              rw [hpc] at hl
              rcases Chain.eq_cons hl with ⟨q, k, rfl, hq, hk⟩
              cases hq
              exact awaited_self _ rfl rfl ⟨k, rfl, hk⟩ hp
      | unlisting duty slot q =>
          refine awaited_turn h rfl rfl fun l hl hp => .inl ?_
          rw [hpc] at hl
          exact awaited_self (.collecting duty slot q) rfl rfl hl hp
      | collecting duty slot q =>
          refine awaited_turn h rfl rfl fun l hl hp => ?_
          rw [hpc] at hl
          rcases hl with ⟨k, rfl, hk⟩
          rcases List.mem_cons.mp hp with rfl | hp
          · -- Its mark has just been read.
            right
            change s.mark p ≤ Function.update s.seen p _ p
            rw [Function.update_self, collect_fst]
          · exact .inl (awaited_self (.draining duty q) rfl rfl hk hp)
      | serving =>
          refine awaited_turn h rfl rfl fun l hl hp => ?_
          rw [hpc] at hl
          rw [show l = [] from hl] at hp
          cases hp

omit [DecidableEq T] in
theorem finished_le (s : State P T) (p : P) : s.finished p ≤ s.mark p := by
  unfold State.finished
  split
  · exact le_rfl
  · exact Nat.sub_le _ _

/-- A server changes no producer's place and no mark. -/
theorem serveNext_frame (latency : ℕ) (s : State P T) (t : T) (now : ℕ) :
    (s.serveNext latency t now).post = s.post ∧ (s.serveNext latency t now).mark = s.mark := by
  unfold State.serveNext
  cases s.serve t with
  | draining duty q => cases q <;> exact ⟨rfl, rfl⟩
  | trying | spinningTry =>
      dsimp only
      split <;> exact ⟨rfl, rfl⟩
  | idle | polling | wanting | locked | unlisting | collecting | serving | unlocking | checking
  | asking | spinning | inside => exact ⟨rfl, rfl⟩

/-- What a server has read it has read. -/
theorem seen_next (hbooked : Booked s) (a : Action P T) (p : P) :
    s.seen p ≤ (next latency s a).seen p := by
  rcases hbooked.ledger with ⟨_, hledger⟩
  -- The read of a mark raises what was seen: the mark is never below it.
  cases a with
  | postStep q now spurious =>
      rw [show (next latency s (.postStep q now spurious)).seen = s.seen from
        (postNext_frame latency s q now spurious).2.2.1]
  | post q | poll t | serveNow t | withLock t => exact le_rfl
  | step t now =>
      change s.seen p ≤ (s.serveNext latency t now).seen p
      unfold State.serveNext
      cases s.serve t with
      | collecting duty slot q =>
          change s.seen p ≤ Function.update s.seen slot _ p
          by_cases hp : p = slot
          · rw [hp, Function.update_self, collect_fst]
            exact hledger.le slot
          · rw [Function.update_of_ne hp]
      | draining duty q => cases q <;> exact le_rfl
      | trying | spinningTry =>
          dsimp only
          split <;> exact le_rfl
      | idle | polling | wanting | locked | unlisting | serving | unlocking | checking | asking
      | spinning | inside => exact le_rfl

omit [DecidableEq T] in
/-- A step of a producer to another place in `post`. -/
theorem finished_setPost {p : P} {pc : PostPc P} (hpost : s'.post = Function.update s.post p pc)
    (hmark : s'.mark = s.mark) (q : P) :
    s'.finished q = if q = p then if pc = .idle then s.mark p else s.mark p - 1
      else s.finished q := by
  unfold State.finished
  rw [hpost, hmark]
  by_cases hq : q = p
  · rw [hq, Function.update_self, if_pos rfl]
  · rw [Function.update_of_ne hq, if_neg hq]

omit [DecidableEq T] in
/-- A producer that is about to read or write the list, or to ask, has not returned. -/
theorem finished_of_ne {p : P} (h : s.post p ≠ .idle) : s.finished p = s.mark p - 1 :=
  if_neg h

omit [DecidableEq P] [DecidableEq T] in
theorem flagged_congr {p : P} (hqueued : s'.queued p = s.queued p)
    (hlisting : (s'.post p).Listing → (s.post p).Listing) (h : Flagged s p) : Flagged s' p := by
  refine ⟨?_, fun hx => h.2 (hlisting hx)⟩
  rw [hqueued]
  exact h.1

/-- A flag that is set stays set until a server passes the slot. -/
theorem flagged_next (hkept : Kept s) {a : Action P T} {p : P} (h : Flagged s p) :
    Flagged (next latency s a) p ∨ Awaited (next latency s a) p := by
  -- A producer other than this one, or this one to a place where it does not list.
  have hpost : ∀ {s' : State P T} {q : P} {pc : PostPc P},
      s'.post = Function.update s.post q pc → (p = q → ¬ pc.Listing) →
      (s'.queued p = s.queued p ∨ s'.queued p = true) → Flagged s' p := by
    intro s' q pc hpost hpc hqueued
    refine ⟨hqueued.elim (fun hx => hx.trans h.1) id, fun hx => ?_⟩
    rw [hpost] at hx
    by_cases hq : p = q
    · rw [hq, Function.update_self] at hx
      exact hpc hq hx
    · rw [Function.update_of_ne hq] at hx
      exact h.2 hx
  cases a with
  | post q => exact .inl (hpost rfl (fun _ => id) (.inl rfl))
  | poll t | serveNow t | withLock t => exact .inl (flagged_congr rfl id h)
  | postStep q now spurious =>
      left
      change Flagged (s.postNext latency q now spurious) p
      unfold State.postNext
      cases hpc : s.post q with
      | idle => exact h
      | bumped =>
          refine hpost rfl (fun hq => ?_) ?_
          · rw [← hq, if_pos h.1]
            exact id
          · change Function.update s.queued q true p = _ ∨ Function.update s.queued q true p = _
            by_cases hq : p = q
            · rw [hq]
              exact .inr (Function.update_self ..)
            · exact .inl (Function.update_of_ne hq ..)
      | swapped | loaded head =>
          refine hpost rfl (fun hq => ?_) (.inl rfl)
          have hnot := h.2
          rw [hq, hpc] at hnot
          exact absurd trivial hnot
      | linked head =>
          have hne : p ≠ q := by
            rintro rfl
            have hnot := h.2
            rw [hpc] at hnot
            exact hnot trivial
          dsimp only
          split <;> exact hpost rfl (fun hq => absurd hq hne) (.inl rfl)
      | asking => exact hpost rfl (fun _ => id) (.inl rfl)
  | step t now =>
      change Flagged (s.serveNext latency t now) p ∨ Awaited (s.serveNext latency t now) p
      unfold State.serveNext
      cases hpc : s.serve t with
      | unlisting duty slot q =>
          by_cases hp : p = slot
          · -- The server has still to read its mark.
            rcases hkept.listed with ⟨l, d, hl⟩
            have hd := hl.drains t
            rw [hpc] at hd
            refine .inr (awaited_self (.collecting duty slot q) (l := d t) rfl rfl hd ?_)
            rcases hd with ⟨m, hm, _⟩
            rw [hm, hp]
            exact List.mem_cons_self
          · exact .inl (flagged_congr (Function.update_of_ne hp ..) id h)
      | draining duty q => cases q <;> exact .inl (flagged_congr rfl id h)
      | trying | spinningTry =>
          dsimp only
          split <;> exact .inl (flagged_congr rfl id h)
      | idle | polling | wanting | locked | collecting | serving | unlocking | checking | asking
      | spinning | inside => exact .inl (flagged_congr rfl id h)

omit [DecidableEq P] [DecidableEq T] in
/-- Whoever has cleared the flag of a slot reads its mark next. -/
theorem awaited_of_collects {l : List P} {d : T → List P} (hl : Listed s l d) {p : P}
    (h : (s.serve t).Collects p) : Awaited s p := by
  have hd := hl.drains t
  cases hpc : s.serve t <;> rw [hpc] at h hd
  case collecting duty slot q =>
    refine ⟨t, slot :: d t, ?_, ?_⟩
    · rw [hpc]
      exact ⟨d t, rfl, hd⟩
    · rw [show slot = p from h]
      exact List.mem_cons_self
  all_goals exact h.elim

omit [DecidableEq P] [DecidableEq T] in
/-- What a server has taken it reads. -/
theorem awaited_of_drains {l : List P} {d : T → List P} (hl : Listed s l d) {p : P}
    (h : p ∈ d t) : Awaited s p := by
  have hd := hl.drains t
  -- The three places of a drain: before, at and after the slot it has taken.
  cases hpc : s.serve t <;> rw [hpc] at hd
  case draining duty q =>
    refine ⟨t, d t, ?_, h⟩
    rw [hpc]
    exact hd
  case unlisting duty slot q =>
    refine ⟨t, d t, ?_, h⟩
    rw [hpc]
    exact hd
  case collecting duty slot q =>
    refine ⟨t, slot :: d t, ?_, List.mem_cons_of_mem _ h⟩
    rw [hpc]
    exact ⟨d t, rfl, hd⟩
  all_goals
    rw [show d t = [] from hd] at h
    cases h

/-- A step completes the posts whose slots are in the list, or that are being read. -/
theorem finished_next (latency : ℕ) (hkept : Kept s) {a : Action P T} (hg : guard s a) (p : P) :
    (next latency s a).finished p = s.finished p ∨
      s.finished p ≤ (next latency s a).finished p ∧
        (Flagged (next latency s a) p ∨ Awaited (next latency s a) p ∨
          (next latency s a).mark p ≤ (next latency s a).seen p) := by
  -- A post is finished by the last step of its producer.
  have hsame : ∀ {s' : State P T}, s'.post = s.post → s'.mark = s.mark →
      s'.finished p = s.finished p := by
    intro s' hpost hmark
    unfold State.finished
    rw [hpost, hmark]
  cases a with
  | post q =>
      have hg : s.post q = .idle := hg
      left
      unfold State.finished
      change (if Function.update s.post q .bumped p = .idle then
        Function.update s.mark q (s.mark q + 1) p else
        Function.update s.mark q (s.mark q + 1) p - 1) = _
      by_cases hp : p = q
      · rw [hp, Function.update_self, Function.update_self, if_neg nofun, if_pos hg]
        rfl
      · rw [Function.update_of_ne hp, Function.update_of_ne hp]
  | poll t | serveNow t | withLock t => exact .inl (hsame rfl rfl)
  | step t now =>
      rcases serveNext_frame latency s t now with ⟨hpost, hmark⟩
      exact .inl (hsame hpost hmark)
  | postStep q now spurious =>
      change (s.postNext latency q now spurious).finished p = s.finished p ∨
        s.finished p ≤ (s.postNext latency q now spurious).finished p ∧
          (Flagged (s.postNext latency q now spurious) p ∨
            Awaited (s.postNext latency q now spurious) p ∨
            (s.postNext latency q now spurious).mark p ≤
              (s.postNext latency q now spurious).seen p)
      -- The producer goes on with its post, or returns from it.
      have hgoes : ∀ {s' : State P T} {pc : PostPc P},
          s'.post = Function.update s.post q pc → s'.mark = s.mark → s.post q ≠ .idle →
          pc ≠ .idle → s'.finished p = s.finished p := by
        intro s' pc hpost hmark hq hpc
        rw [finished_setPost hpost hmark, if_neg hpc]
        split
        · next hp => rw [hp, finished_of_ne hq]
        · rfl
      have hreturns : ∀ {s' : State P T} {A : Prop},
          s'.post = Function.update s.post q .idle → s'.mark = s.mark →
          (p = q → s'.queued p = true ∨ A) →
          s'.finished p = s.finished p ∨ s.finished p ≤ s'.finished p ∧ (Flagged s' p ∨ A) := by
        intro s' A hpost hmark hx
        rw [finished_setPost hpost hmark, if_pos rfl]
        split
        · next hp =>
            right
            refine ⟨hp ▸ finished_le s p, (hx hp).imp_left fun hflag => ⟨hflag, ?_⟩⟩
            rw [hpost, hp, Function.update_self]
            exact id
        · exact .inl rfl
      rcases hkept.listed with ⟨l, d, hl⟩
      unfold State.postNext
      cases hpc : s.post q with
      | idle => exact .inl rfl
      | bumped =>
          dsimp only
          by_cases hq : s.queued q = true
          · rw [if_pos hq]
            exact hreturns rfl rfl fun hp => .inl (by rw [hp]; exact Function.update_self ..)
          · rw [if_neg hq]
            exact .inl (hgoes rfl rfl (by rw [hpc]; exact nofun) nofun)
      | swapped | loaded head => exact .inl (hgoes rfl rfl (by rw [hpc]; exact nofun) nofun)
      | linked head =>
          dsimp only
          split
          · by_cases hhead : head = none
            · rw [if_pos hhead]
              exact .inl (hgoes rfl rfl (by rw [hpc]; exact nofun) nofun)
            · rw [if_neg hhead]
              refine hreturns rfl rfl fun hp => .inl ((hl.queued p).mpr (.inr (.inl ?_)))
              rw [hp, hpc]
              trivial
          · exact .inl (hgoes rfl rfl (by rw [hpc]; exact nofun) nofun)
      | asking =>
          refine hreturns rfl rfl fun hp => ?_
          -- It has listed its slot, unless a server has taken it since.
          by_cases hread : s.mark p = s.seen p
          · exact .inr (.inr (Nat.le_of_eq hread))
          · rcases hkept.noted p hread with hx | hx | ⟨t, hx⟩
            · exact .inl hx
            · rw [hp, hpc] at hx
              cases hx
            · exact .inr (.inl (awaited_of_collects hl hx))

/-- Every step leaves the slots of the posts that have returned in the list, or in the hands
    of a server. -/
theorem held_next (h : Held s) (hkept : Kept s) (hbooked : Booked s) {a : Action P T}
    (hg : guard s a) : Held (next latency s a) := by
  intro p hp
  have hread : ¬ (next latency s a).mark p ≤ (next latency s a).seen p := by
    have hle := finished_le (next latency s a) p
    omega
  rcases finished_next latency hkept hg p with hsame | ⟨_, hx | hx | hx⟩
  · rw [hsame] at hp
    rcases h p (lt_of_le_of_lt (seen_next hbooked a p) hp) with hx | hx
    · exact flagged_next hkept hx
    · exact .inr ((awaited_next latency hkept hg hx).resolve_right hread)
  · exact .inl hx
  · exact .inr hx
  · exact absurd hx hread

omit [DecidableEq T] in
/-- With nothing in the list, whatever a server has not read it is going to read. -/
theorem Held.awaited (h : Held s) (hkept : Kept s) (hnone : s.pending = none) {p : P}
    (hp : s.seen p < s.finished p) : Awaited s p := by
  rcases hkept.listed with ⟨l, d, hl⟩
  rcases h p hp with ⟨hqueued, hlisting⟩ | hx
  · rcases (hl.queued p).mp hqueued with hx | hx | ⟨t, hx⟩
    · have hchain := hl.chain
      rw [hnone] at hchain
      rw [hchain.eq_nil] at hx
      cases hx
    · exact absurd hx hlisting
    · exact awaited_of_drains hl hx
  · exact hx

/-- A thread that is in a poll or a locked section moves by its own steps. -/
theorem serve_next {a : Action P T} (hg : guard s a) (hbusy : s.serve t ≠ .idle)
    (ha : ∀ now, a ≠ .step t now) : (next latency s a).serve t = s.serve t := by
  -- Calls begin on threads that are idle, so that another thread has begun.
  cases a with
  | post p => rfl
  | postStep p now spurious => exact congrFun (postNext_frame latency s p now spurious).1 t
  | poll t' | serveNow t' | withLock t' =>
      have hne : t ≠ t' := by
        rintro rfl
        exact hbusy hg
      exact Function.update_of_ne hne ..
  | step t' now =>
      have hne : t ≠ t' := by
        rintro rfl
        exact ha now rfl
      change (s.serveNext latency t' now).serve t = _
      unfold State.serveNext
      cases s.serve t' with
      | draining duty q => cases q <;> exact Function.update_of_ne hne ..
      | trying | spinningTry =>
          dsimp only
          split <;> exact Function.update_of_ne hne ..
      | idle => rfl
      | polling | wanting | locked | unlisting | collecting | serving | unlocking | checking
      | asking | spinning | inside => exact Function.update_of_ne hne ..

/-- A poll gets past that point with an empty list, or by finding the consumer locked. -/
theorem past_next {a : Action P T} (hg : guard s a)
    (h : ((next latency s a).serve t).Past) :
    (s.serve t).Past ∨ (next latency s a).pending = none ∨
      ∃ now, a = .step t now ∧ s.busy = true ∧
        ((∃ duty, s.serve t = .wanting duty) ∨ ∃ duty, s.serve t = .trying duty) := by
  by_cases hpast : (s.serve t).Past
  · exact .inl hpast
  right
  have hbusy : s.serve t ≠ .idle := by
    intro hx
    rw [hx] at hpast
    exact hpast trivial
  -- Only the thread's own step takes it there.
  by_cases ha : ∃ now, a = .step t now
  · rcases ha with ⟨now, rfl⟩
    change ((s.serveNext latency t now).serve t).Past at h
    change (s.serveNext latency t now).pending = none ∨ _
    unfold State.serveNext at h ⊢
    cases hpc : s.serve t <;> rw [hpc] at hpast h
    case polling =>
      left
      by_contra hsome
      change s.pending ≠ none at hsome
      change (Function.update s.serve t _ t).Past at h
      rw [Function.update_self, if_neg hsome] at h
      exact h
    case wanting duty =>
      refine .inr ⟨now, rfl, ?_, .inl ⟨duty, rfl⟩⟩
      by_contra hfree
      change (Function.update s.serve t _ t).Past at h
      rw [Function.update_self, if_neg hfree] at h
      exact h
    case trying duty =>
      refine .inr ⟨now, rfl, ?_, .inr ⟨duty, rfl⟩⟩
      by_contra hfree
      dsimp only at h
      rw [if_neg hfree] at h
      change (Function.update s.serve t _ t).Past at h
      rw [Function.update_self] at h
      exact h
    case locked duty => exact .inl rfl
    all_goals exact absurd trivial hpast
  · rw [serve_next hg hbusy fun now hx => ha ⟨now, hx⟩] at h
    exact absurd h hpast

omit [DecidableEq P] [DecidableEq T] in
theorem willAsk_of_returned {duty : Bool} (h : (returned duty : ServePc P).WillAsk) :
    duty = true := by
  cases duty with
  | true => rfl
  | false => exact h.elim

/-- Only a poll is going to ask. -/
theorem willAsk_next {a : Action P T} (h : ((next latency s a).serve t).WillAsk) :
    (s.serve t).WillAsk ∨ a = .poll t := by
  have hother : ∀ {s' : State P T} {t' : T} {pc : ServePc P},
      s'.serve = Function.update s.serve t' pc → (t = t' → pc.WillAsk → (s.serve t).WillAsk) →
      (s'.serve t).WillAsk → (s.serve t).WillAsk := by
    intro s' t' pc hserve hpc hx
    rw [hserve] at hx
    by_cases ht : t = t'
    · rw [ht, Function.update_self] at hx
      exact hpc ht hx
    · rwa [Function.update_of_ne ht] at hx
  -- A step changes its own thread's program counter only; `poll` is the one that starts a will to
  -- ask.
  cases a with
  | post p => exact .inl h
  | postStep p now spurious =>
      left
      rwa [show (next latency s (.postStep p now spurious)).serve = s.serve from
        (postNext_frame latency s p now spurious).1] at h
  | poll t' =>
      by_cases ht : t = t'
      · exact .inr (congrArg _ ht.symm)
      · exact .inl (hother rfl (fun hx => absurd hx ht) h)
  | serveNow t' =>
      refine .inl (hother rfl (fun _ hx => ?_) h)
      split at hx
      · exact hx.elim
      · cases hx
  | withLock t' =>
      refine .inl (hother rfl (fun _ hx => ?_) h)
      cases hx
  | step t' now =>
      left
      change ((s.serveNext latency t' now).serve t).WillAsk at h
      -- A step of a thread that is going to ask, or that is not and leaves it at that.
      have hkeep : ∀ {s' : State P T} {pc pc' : ServePc P},
          s'.serve = Function.update s.serve t' pc' → s.serve t' = pc →
          (pc'.WillAsk → pc.WillAsk) → (s'.serve t).WillAsk → (s.serve t).WillAsk := by
        intro s' pc pc' hserve hpc hx
        refine hother hserve fun ht hy => ?_
        rw [ht, hpc]
        exact hx hy
      unfold State.serveNext at h
      cases hpc : s.serve t' <;> rw [hpc] at h
      case idle => exact h
      case polling | checking | asking => exact hkeep rfl hpc (fun _ => trivial) h
      case wanting duty =>
        refine hkeep rfl hpc (fun hx => ?_) h
        split at hx
        · exact willAsk_of_returned hx
        · exact hx
      case trying duty =>
        dsimp only at h
        split at h
        · exact hkeep rfl hpc willAsk_of_returned h
        · refine hkeep rfl hpc (fun hx => ?_) h
          exact hx
      case draining duty q =>
        cases q with
        | none =>
            refine hkeep rfl hpc (fun hx => ?_) h
            exact hx
        | some slot =>
            refine hkeep rfl hpc (fun hx => ?_) h
            exact hx
      case unlocking duty => exact hkeep rfl hpc willAsk_of_returned h
      case locked | unlisting | collecting | serving =>
        refine hkeep rfl hpc (fun hx => ?_) h
        exact hx
      case spinning =>
        refine hkeep rfl hpc (fun hx => ?_) h
        split at hx <;> exact hx
      case spinningTry =>
        dsimp only at h
        split at h
        · refine hkeep rfl hpc (fun hx => ?_) h
          exact hx
        · refine hkeep rfl hpc (fun hx => ?_) h
          exact hx
      case inside =>
        refine hkeep rfl hpc (fun hx => ?_) h
        exact hx

/-- The step asks for a poll. -/
def Asks (s : State P T) : Action P T → Prop
  | .postStep p _ _ => s.post p = .asking
  | .step t _ => s.serve t = .asking
  | .post _ | .poll _ | .serveNow _ | .withLock _ => False

/-- The deadline is set by an ask, and cleared by a poll. -/
theorem deadline_next {a : Action P T} (ha : ¬ Asks s a) (hpoll : ∀ t, a ≠ .poll t) :
    (next latency s a).deadline = s.deadline := by
  -- The asks are the last step of a post, and that of a poll that leaves work behind.
  cases a with
  | post p => rfl
  | poll t => exact absurd rfl (hpoll t)
  | serveNow t | withLock t => rfl
  | postStep p now spurious =>
      change (s.postNext latency p now spurious).deadline = _
      unfold State.postNext
      cases hpc : s.post p with
      | asking => exact absurd hpc ha
      | linked head =>
          dsimp only
          split <;> rfl
      | idle | bumped | swapped | loaded => rfl
  | step t now =>
      change (s.serveNext latency t now).deadline = _
      unfold State.serveNext
      cases hpc : s.serve t with
      | asking => exact absurd hpc ha
      | draining duty q => cases q <;> rfl
      | trying | spinningTry =>
          dsimp only
          split <;> rfl
      | idle | polling | wanting | locked | unlisting | collecting | serving | unlocking
      | checking | spinning | inside => rfl

/-- Whoever is about to ask has listed its slot in an empty list. -/
theorem asking_next {a : Action P T} {p : P} (h : (next latency s a).post p = .asking) :
    s.post p = .asking ∨ s.post p ≠ .idle ∧ s.pending = none := by
  -- A producer other than `p` leaves the place of `p` alone.
  have hother : ∀ {s' : State P T} {q : P} {pc : PostPc P},
      s'.post = Function.update s.post q pc → s'.post p = .asking →
      (p = q → pc = .asking → s.post q ≠ .idle ∧ s.pending = none) →
      s.post p = .asking ∨ s.post p ≠ .idle ∧ s.pending = none := by
    intro s' q pc hpost hx hpc
    rw [hpost] at hx
    by_cases hp : p = q
    · rw [hp, Function.update_self] at hx
      rw [hp]
      exact .inr (hpc hp hx)
    · rw [Function.update_of_ne hp] at hx
      exact .inl hx
  -- Of the producer's own steps only the exchange leads there, and only if the list was empty.
  cases a with
  | post q => exact hother rfl h fun _ hx => by cases hx
  | poll t | serveNow t | withLock t => exact .inl h
  | step t now =>
      rw [show (next latency s (.step t now)).post = s.post from
        (serveNext_frame latency s t now).1] at h
      exact .inl h
  | postStep q now spurious =>
      change (s.postNext latency q now spurious).post p = .asking at h
      unfold State.postNext at h
      cases hpc : s.post q with
      | idle =>
          rw [hpc] at h
          exact .inl h
      | linked head =>
          rw [hpc] at h
          dsimp only at h
          split at h
          · next hcas =>
              refine hother rfl h fun _ hx => ⟨by rw [hpc]; exact nofun, ?_⟩
              by_cases hhead : head = none
              · exact hcas.1.trans hhead
              · rw [if_neg hhead] at hx
                cases hx
          · exact hother rfl h fun _ hx => by cases hx
      | bumped =>
          rw [hpc] at h
          refine hother rfl h fun _ hx => ?_
          split at hx <;> cases hx
      | swapped | loaded head | asking =>
          rw [hpc] at h
          exact hother rfl h fun _ hx => by cases hx

/-- A post begins where the producer has none. -/
theorem posting_next {a : Action P T} {p : P} (h : (next latency s a).post p ≠ .idle) :
    s.post p ≠ .idle ∨ a = .post p := by
  -- Only the producer's own first step begins a post.
  cases a with
  | post q =>
      by_cases hp : p = q
      · exact .inr (congrArg _ hp.symm)
      · left
        change Function.update s.post q .bumped p ≠ .idle at h
        rwa [Function.update_of_ne hp] at h
  | poll t | serveNow t | withLock t => exact .inl h
  | step t now =>
      rw [show (next latency s (.step t now)).post = s.post from
        (serveNext_frame latency s t now).1] at h
      exact .inl h
  | postStep q now spurious =>
      left
      intro hidle
      refine h ?_
      change (s.postNext latency q now spurious).post p = .idle
      by_cases hp : p = q
      · rw [hp] at hidle ⊢
        unfold State.postNext
        rw [hidle]
        exact hidle
      · unfold State.postNext
        cases s.post q with
        | idle => exact hidle
        | linked head =>
            dsimp only
            split <;> exact (Function.update_of_ne hp ..).trans hidle
        | bumped | swapped | loaded head | asking =>
            exact (Function.update_of_ne hp ..).trans hidle

end

section

variable {P T : Type*} [DecidableEq P] [DecidableEq T] {s : Timed P T} {latency now began : ℕ}

/-- A step of the delegator covers the posts of before, and its own are recent. -/
theorem covers_act (hkept : Kept s.queue) (hbooked : Booked s.queue) {a : Action P T}
    (hg : guard s.queue a) (hclock : s.clock ≤ now) (hbegan : began ≤ s.clock)
    (h : s.Covers began) : (timedNext latency s (.act a now)).Covers began := by
  refine Since.step h (hbegan.trans hclock) (seen_next hbooked a) fun p hp => ?_
  refine (awaited_next latency hkept hg hp).imp_right fun hread => ?_
  exact (finished_le _ p).trans hread

omit [DecidableEq T] in
/-- With nothing in the list there is nothing that is not about to be read. -/
theorem covers_none (hheld : Held s.queue) (hkept : Kept s.queue)
    (hnone : s.queue.pending = none) : s.Covers began :=
  since_of_awaited fun _ hp => hheld.awaited hkept hnone hp

theorem note_poll (s : State P T) (a : Action P T) (now : ℕ) (q : Poll T) :
    (s.note a now q).thread = q.thread ∧ (s.note a now q).began = q.began := by
  unfold State.note
  split
  · split <;> exact ⟨rfl, rfl⟩
  · exact ⟨rfl, rfl⟩

theorem note_blocked {s : State P T} (a : Action P T) (now : ℕ) {q : Poll T}
    (h : (s.serve q.thread).Past) : (s.note a now q).blocked = q.blocked := by
  unfold State.note
  split
  · split
    · next hpc =>
        rw [hpc] at h
        exact h.elim
    · next hpc =>
        rw [hpc] at h
        exact h.elim
    all_goals rfl
  · rfl

theorem note_locked {s : State P T} {q : Poll T} (hbusy : s.busy = true)
    (hpc : (∃ duty, s.serve q.thread = .wanting duty) ∨ ∃ duty, s.serve q.thread = .trying duty) :
    (s.note (.step q.thread now) now q).blocked = true := by
  unfold State.note
  rw [if_pos rfl]
  rcases hpc with ⟨duty, hpc⟩ | ⟨duty, hpc⟩ <;>
  · rw [hpc]
    exact hbusy

theorem timedInv_init {place : DutyPlace} (h : timedInit latency place s) :
    TimedInv latency s := by
  rcases h with ⟨hinit, hdeadline, hinner, hpoll, hrenewal⟩
  have hzero : ∀ p, s.queue.finished p = 0 := fun p =>
    Nat.eq_zero_of_le_zero (hinit.1 p ▸ finished_le s.queue p)
  have hreach : (system latency).Reachable s.queue := .init _ hinit
  exact
    { kept := kept_init hinit
      booked := booked_reachable hreach
      held := fun p hp => by rw [hzero p] at hp; omega
      mine := fun t ht => by
        rw [hinit.2.2.2.2.2.2.2.2 t] at ht
        cases ht
      deadline := .inl hdeadline
      past := by rw [hrenewal]; exact ⟨le_rfl, le_rfl⟩
      covers := .inr fun p n _ hle => by rw [hzero p] at hle; omega
      posting := fun p hp => absurd (hinit.2.2.2.2.2.2.2.1 p) hp
      asking := fun p hp => by
        rw [hinit.2.2.2.2.2.2.2.1 p] at hp
        cases hp
      began := fun q hq => by rw [hpoll] at hq; cases hq
      poll := fun q hq => by rw [hpoll] at hq; cases hq }

/-- A renewal that may be the last one after a step, with the deadline that goes with it. -/
structure Fits (latency : ℕ) (s : Timed P T) (now deadline : ℕ) (r : Renewal) : Prop where
  deadline : deadline = NEVER ∨ deadline = ns (r.time + latency)
  past : r.began ≤ r.time ∧ r.time ≤ now
  began : r.began ≤ s.clock
  covers : r.blocked = true ∨ s.Covers r.began

/-- An ask renews, and what completed before the asker began is covered. -/
theorem fits_act (h : TimedInv latency s) {a : Action P T} (hfree : s.free a now)
    (hclock : s.clock ≤ now) :
    Fits latency s now (next latency s.queue a).deadline (s.renew a now) := by
  have hpast := h.past
  -- Without an ask, the deadline and the renewal are those of before.
  have hsame : ¬ Asks s.queue a → (∀ t, a ≠ .poll t) → s.renew a now = s.renewal →
      Fits latency s now (next latency s.queue a).deadline (s.renew a now) := by
    intro ha hpoll hrenew
    rw [deadline_next ha hpoll, hrenew]
    exact ⟨h.deadline, ⟨hpast.1, hpast.2.trans hclock⟩, hpast.1.trans hpast.2, h.covers⟩
  cases a with
  | post p => exact hsame id (by simp) rfl
  | poll t | serveNow t => exact hfree.elim
  | withLock t => exact hsame id (by simp) rfl
  | postStep p reading spurious =>
      by_cases hask : s.queue.post p = .asking
      · have hreading : reading = now := hfree
        have hbegan := h.posting p (by rw [hask]; simp)
        have hdeadline : (next latency s.queue (.postStep p reading spurious)).deadline =
            ns (reading + latency) := by
          change (s.queue.postNext latency p reading spurious).deadline = _
          rw [State.postNext, hask]
        have hrenew : s.renew (.postStep p reading spurious) now =
            ⟨s.postBegan p, now, false⟩ := if_pos hask
        rw [hdeadline, hrenew, hreading]
        exact ⟨.inr rfl, ⟨hbegan.trans hclock, le_rfl⟩, hbegan, .inr (h.asking p hask)⟩
      · exact hsame hask (by simp) (if_neg hask)
  | step t reading =>
      by_cases hask : s.queue.serve t = .asking
      · have hreading : reading = now := hfree
        rcases h.mine t (by rw [hask]; trivial) with ⟨q, hq, rfl⟩
        have hbegan := h.began q hq
        have hdeadline : (next latency s.queue (.step q.thread reading)).deadline =
            ns (reading + latency) := by
          change (s.queue.serveNext latency q.thread reading).deadline = _
          rw [State.serveNext, hask]
        have hrenew : s.renew (.step q.thread reading) now = ⟨q.began, now, q.blocked⟩ := by
          rw [Timed.renew, hq]
          exact if_pos hask
        rw [hdeadline, hrenew, hreading]
        refine ⟨.inr rfl, ⟨hbegan.trans hclock, le_rfl⟩, hbegan, h.poll q hq ?_⟩
        rw [hask]
        trivial
      · refine hsame hask (by simp) ?_
        rw [Timed.renew]
        split
        · exact if_neg hask
        · rfl

theorem timedInv_act (h : TimedInv latency s) {a : Action P T} (hclock : s.clock ≤ now)
    (hfree : s.free a now) (hg : guard s.queue a) :
    TimedInv latency (timedNext latency s (.act a now)) := by
  have hkept : Kept (next latency s.queue a) := kept_next h.kept hg
  have hheld : Held (next latency s.queue a) := held_next h.held h.kept h.booked hg
  have hcovers : ∀ {began}, began ≤ s.clock → s.Covers began →
      (timedNext latency s (.act a now)).Covers began :=
    fun hbegan hx => covers_act h.kept h.booked hg hclock hbegan hx
  -- The step does not touch the duty, other than its due time by a request.
  rcases fits_act h hfree hclock with ⟨hdeadline, hpast, hbegan, hrenew⟩
  have hpoll : ∀ t, a ≠ .poll t := by
    rintro t rfl
    exact hfree
  refine
    { kept := hkept
      booked := booked_next h.booked h.kept hg
      held := hheld
      mine := fun t ht => ?_
      deadline := hdeadline
      past := hpast
      covers := hrenew.imp_right (hcovers hbegan)
      posting := fun p hp => ?_
      asking := fun p hp => ?_
      began := fun q' hq' => ?_
      poll := fun q' hq' hpast => ?_ }
  · rcases (willAsk_next ht).resolve_right (hpoll t) |> h.mine t with ⟨q, hq, hthread⟩
    refine ⟨s.queue.note a now q, ?_, (note_poll ..).1.trans hthread⟩
    change s.poll.map _ = _
    rw [hq]
    rfl
  · -- The post began at this step, or before.
    have hold : s.queue.post p ≠ .idle → s.postBegan p ≤ now :=
      fun hx => (h.posting p hx).trans hclock
    have hpost : (next latency s.queue a).post p ≠ .idle := hp
    have hposting := posting_next hpost
    cases a with
    | post q =>
        change Function.update s.postBegan q now p ≤ now
        by_cases hq : p = q
        · rw [hq, Function.update_self]
        · rw [Function.update_of_ne hq]
          refine hold (hposting.resolve_right fun hx => ?_)
          cases hx
          exact hq rfl
    | postStep q reading spurious | poll t | serveNow t | withLock t | step t reading =>
        refine hold (hposting.resolve_right fun hx => ?_)
        cases hx
  · have hsame : (timedNext latency s (.act a now)).postBegan p = s.postBegan p := by
      cases a with
      | post q =>
          refine Function.update_of_ne ?_ ..
          rintro rfl
          change Function.update s.queue.post p .bumped p = .asking at hp
          rw [Function.update_self] at hp
          cases hp
      | postStep q reading spurious | poll t | serveNow t | withLock t | step t reading => rfl
    rw [hsame]
    -- Who has found the list empty asks, and no earlier post is waited for.
    rcases asking_next hp with hx | ⟨hx, hnone⟩
    · exact hcovers (h.posting p (by rw [hx]; simp)) (h.asking p hx)
    · exact hcovers (h.posting p hx) (covers_none h.held h.kept hnone)
  · rcases Option.map_eq_some_iff.mp hq' with ⟨q, hq, rfl⟩
    rw [(note_poll ..).2]
    exact (h.began q hq).trans hclock
  · rcases Option.map_eq_some_iff.mp hq' with ⟨q, hq, rfl⟩
    rw [(note_poll ..).1] at hpast
    rw [(note_poll ..).2]
    -- The poll gets past that point by this step, or was past it.
    rcases past_next hg hpast with hbefore | hnone | ⟨reading, rfl, hbusy, hpc⟩
    · rw [note_blocked a now hbefore]
      exact (h.poll q hq hbefore).imp_right (hcovers (h.began q hq))
    · exact .inr (covers_none (s := timedNext latency s (.act a now)) hheld hkept hnone)
    · have hreading : reading = now := hfree
      rw [hreading]
      exact .inl (note_locked hbusy hpc)

/-- Nobody else is going to ask while a poll begins. -/
theorem timedInv_run (h : TimedInv latency s) {t : T} (hclock : s.clock ≤ now)
    (hnone : s.poll = none) (hidle : s.queue.serve t = .idle) :
    TimedInv latency (timedNext latency s (.run t now)) := by
  have hg : guard s.queue (.poll t) := hidle
  have hkept : Kept (next latency s.queue (.poll t)) := kept_next h.kept hg
  have hbooked : Booked (next latency s.queue (.poll t)) := booked_next h.booked h.kept hg
  have hheld : Held (next latency s.queue (.poll t)) := held_next h.held h.kept h.booked hg
  -- A poll begins with the due time cleared, and reads nothing yet.
  have hcovers : ∀ {began}, s.Covers began →
      (timedNext latency s (.run t now)).Covers began := by
    intro began hx p n hn hle
    refine (hx p n hn hle).imp_right fun hp => ?_
    rcases awaited_next latency h.kept hg hp with hp | hread
    · exact hp
    · exact absurd hread (not_le.mpr (lt_of_lt_of_le hn (hle.trans (finished_le _ p))))
  refine
    { kept := hkept
      booked := hbooked
      held := hheld
      mine := fun t' ht' => ?_
      deadline := .inl rfl
      past := ⟨h.past.1, h.past.2.trans hclock⟩
      covers := h.covers.imp_right hcovers
      posting := fun p hp => (h.posting p hp).trans hclock
      asking := fun p hp => hcovers (h.asking p hp)
      began := fun q hq => ?_
      poll := fun q hq hpast => ?_ }
  · have hwill : ((next latency s.queue (.poll t)).serve t').WillAsk := ht'
    rcases willAsk_next hwill with hx | hx
    · rcases h.mine t' hx with ⟨q, hq, _⟩
      rw [hnone] at hq
      cases hq
    · cases hx
      exact ⟨_, rfl, rfl⟩
  · cases hq
    exact le_rfl
  · cases hq
    change (Function.update s.queue.serve t .polling t).Past at hpast
    rw [Function.update_self] at hpast
    cases hpast

theorem timedInv_ran (h : TimedInv latency s) {q : Poll T} (hq : s.poll = some q)
    (hclock : s.clock ≤ now) (hidle : s.queue.serve q.thread = .idle) :
    TimedInv latency (timedNext latency s (.ran now)) := by
  have hnext : timedNext latency s (.ran now) =
      { s with
        inner := { Duty.Backoff.run s.inner q.did now with deadline := s.queue.deadline }
        poll := none
        clock := now } := by
    rw [timedNext, hq]
  rw [hnext]
  exact
    { kept := h.kept
      booked := h.booked
      held := h.held
      mine := fun t ht => by
        rcases h.mine t ht with ⟨q', hq', rfl⟩
        rw [hq] at hq'
        cases hq'
        rw [hidle] at ht
        cases ht
      deadline := h.deadline
      past := ⟨h.past.1, h.past.2.trans hclock⟩
      covers := h.covers
      posting := fun p hp => (h.posting p hp).trans hclock
      asking := h.asking
      began := fun _ hx => by cases hx
      poll := fun _ hx => by cases hx }

/-- Every step keeps the invariant. -/
theorem timedInv_next (h : TimedInv latency s) {a : TimedAction P T} (hg : timedGuard s a) :
    TimedInv latency (timedNext latency s a) := by
  cases a with
  | act a now => exact timedInv_act h hg.1 hg.2.1 hg.2.2
  | run t now => exact timedInv_run h hg.1 hg.2.1 hg.2.2
  | ran now =>
      rcases hg with ⟨hclock, q, hq, hidle⟩
      exact timedInv_ran h hq hclock hidle

theorem timedInv_reachable {place : DutyPlace} (h : (timed latency place).Reachable s) :
    TimedInv latency s :=
  h.induct (P := TimedInv latency) (fun _ => timedInv_init)
    fun _ _ hs hg => timedInv_next hs hg

omit [DecidableEq T] in
/-- Between operations, the due time is the latency after the last ask, and what had
    completed before the asker began is covered, unless it found the consumer locked. -/
theorem TimedInv.renewed (h : TimedInv latency s) (hq : s.Quiet) :
    Renewed s.queue.log s.queue.mark s.doneAt s.renewal s.clock s.due latency := by
  refine ⟨h.past, fun p n hn hle => ?_⟩
  rw [((h.booked.quiet hq.1).served rfl).lastServed_eq p] at hn
  have hfinished : s.queue.finished p = s.queue.mark p := if_pos (hq.1.1 p)
  refine ⟨?_, ?_⟩
  · -- With nobody in a call a slot that is queued is listed, and was asked for.
    rcases h.kept.listed with ⟨l, d, hl⟩
    rcases h.kept.settled hq.1 hl with ⟨hmem, hasked⟩
    have hp := hmem p (ne_of_gt (lt_of_lt_of_le hn hle))
    have hpending : s.queue.pending ≠ none := by
      intro hx
      have hchain := hl.chain
      rw [hx] at hchain
      rw [hchain.eq_nil] at hp
      cases hp
    have hdeadline := h.deadline.resolve_left (hasked hpending)
    calc s.due ≤ s.queue.deadline := min_le_right _ _
      _ = ns (s.renewal.time + latency) := hdeadline
      _ ≤ s.renewal.time + latency := min_le_left _ _
  · refine h.covers.imp_right fun hcovers => ?_
    refine (hcovers p n hn (by rwa [hfinished])).resolve_right ?_
    rintro ⟨t, l, hl, _⟩
    rw [hq.1.2 t] at hl
    exact hl

end

end Queue

/-- For both delegators, in every state with no operation in progress and however the posts,
    the polls and the locked sections went: the due time is no later than the bound after
    the last renewal, for a post that is not yet covered, and the poll or the post that
    renewed began no later than that post completed, unless it is a poll that found the
    consumer locked. The bound is the period, which backs off, where every slot is looked
    at, and the latency where there is a list. -/
theorem renewed_reachable (P T : Type*) [DecidableEq P] [DecidableEq T] (latency : ℕ)
    (place : DutyPlace) :
    (∀ s : Scan.Timed P T, (Scan.timed latency place).Reachable s → s.Quiet →
      s.inner.period ≤ Scan.longest latency ∧
        Renewed s.scan.log s.scan.mark s.doneAt s.renewal s.clock s.inner.due s.inner.period) ∧
      ∀ s : Queue.Timed P T, (Queue.timed latency place).Reachable s → s.Quiet →
        Renewed s.queue.log s.queue.mark s.doneAt s.renewal s.clock s.due latency := by
  constructor
  · intro s hr hq
    exact (Scan.timedInv_reachable hr).renewed hq
  · intro s hr hq
    exact (Queue.timedInv_reachable hr).renewed hq

/-- A latency of 50 microseconds, and one producer. -/
def scanStart : Scan.Timed Unit Unit where
  scan :=
    { mark := fun _ => 0
      registered := fun _ => false
      next := fun _ => none
      seen := fun _ => 0
      head := none
      busy := false
      batch := []
      log := []
      post := fun _ => .idle
      serve := fun _ => .idle }
  inner := Duty.newInner .anywhere 0 (some (50000, 50000 * Scan.SLOT_BACKOFF)) 50000
  poll := none
  clock := 0
  doneAt := fun _ _ => 0
  renewal := ⟨0, 0, false⟩

/-- A poll that finds nothing, at its due time. -/
def idlePoll (now : ℕ) : List (Scan.TimedAction Unit Unit) :=
  Scan.TimedAction.run () now :: List.replicate 5 (Scan.TimedAction.act (.step ()) now) ++
    [Scan.TimedAction.ran now]

/-- Fifty polls that find nothing, and then the first post. -/
def postBackedOff : List (Scan.TimedAction Unit Unit) :=
  (List.range 50).flatMap (fun k => idlePoll ((k + 1) * 50000)) ++
    Scan.TimedAction.act (.post ()) 2500001 ::
      List.replicate 4 (Scan.TimedAction.act (.postStep () false) 2500001)

/-- A latency of 50 microseconds, a producer, and a thread for the polls besides one for
    the locked sections. -/
def queueStart : Queue.Timed Unit Bool where
  queue :=
    { mark := fun _ => 0
      queued := fun _ => false
      nextPending := fun _ => none
      seen := fun _ => 0
      pending := none
      busy := false
      batch := []
      deadline := NEVER
      log := []
      post := fun _ => .idle
      serve := fun _ => .idle }
  inner := Duty.newInner .anywhere 0 none 50000
  poll := none
  clock := 0
  postBegan := fun _ => 0
  doneAt := fun _ _ => 0
  renewal := ⟨0, 0, false⟩

/-- A post, whose poll comes at its deadline and finds the consumer locked. -/
def pollLockedOut : List (Queue.TimedAction Unit Bool) :=
  Queue.TimedAction.act (.post ()) 1000 ::
    List.replicate 5 (Queue.TimedAction.act (.postStep () 1000 false) 1000) ++
    Queue.TimedAction.act (.withLock true) 40000 ::
      List.replicate 2 (Queue.TimedAction.act (.step true 40000) 40000) ++
    Queue.TimedAction.run false 51000 ::
      List.replicate 4 (Queue.TimedAction.act (.step false 51000) 51000) ++
    [Queue.TimedAction.ran 51000, .act (.step true 60000) 60000]

theorem scanStart_init : Scan.timedInit 50000 .anywhere scanStart :=
  ⟨⟨fun _ => rfl, fun _ => rfl, fun _ => rfl, rfl, rfl, rfl, rfl, fun _ => rfl, fun _ => rfl⟩,
    rfl, rfl, rfl⟩

theorem queueStart_init : Queue.timedInit 50000 .anywhere queueStart :=
  ⟨⟨fun _ => rfl, fun _ => rfl, fun _ => rfl, rfl, rfl, rfl, rfl, fun _ => rfl, fun _ => rfl⟩,
    rfl, rfl, rfl, rfl⟩

/-- What the fifty polls and the post lead to. -/
def backedOff : Scan.Timed Unit Unit :=
  (Scan.timed 50000 .anywhere).run scanStart postBackedOff

/-- What the poll that is locked out leads to. -/
def lockedOut : Queue.Timed Unit Bool :=
  (Queue.timed 50000 .anywhere).run queueStart pollLockedOut

theorem quiet_backedOff : backedOff.Quiet :=
  ⟨⟨fun () => by decide +kernel, fun () => by decide +kernel⟩, by decide +kernel⟩

theorem quiet_lockedOut : lockedOut.Quiet := by
  refine ⟨⟨fun () => by decide, fun t => ?_⟩, by decide⟩
  cases t <;> decide

theorem reachable_backedOff : (Scan.timed 50000 .anywhere).Reachable backedOff :=
  System.reachable_run _ postBackedOff scanStart scanStart_init (by decide +kernel)

theorem reachable_lockedOut : (Queue.timed 50000 .anywhere).Reachable lockedOut :=
  System.reachable_run _ pollLockedOut queueStart queueStart_init (by decide)

theorem renewed_late :
    Renewed backedOff.scan.log backedOff.scan.mark backedOff.doneAt backedOff.renewal
        backedOff.clock backedOff.inner.due backedOff.inner.period ∧
      Renewed lockedOut.queue.log lockedOut.queue.mark lockedOut.doneAt lockedOut.renewal
        lockedOut.clock lockedOut.due 50000 :=
  ⟨((renewed_reachable Unit Unit 50000 .anywhere).1 _ reachable_backedOff quiet_backedOff).2,
    (renewed_reachable Unit Bool 50000 .anywhere).2 _ reachable_lockedOut quiet_lockedOut⟩

/-- A post that comes after fifty polls that found nothing, and one whose poll found the
    consumer locked, both wait for longer than the latency. -/
theorem not_prompt :
    (¬ ∀ s : Scan.Timed Unit Unit, (Scan.timed 50000 .anywhere).Reachable s → s.Quiet →
      Prompt s.scan.log s.scan.mark s.doneAt s.inner.due 50000) ∧
      ¬ ∀ s : Queue.Timed Unit Bool, (Queue.timed 50000 .anywhere).Reachable s → s.Quiet →
        Prompt s.queue.log s.queue.mark s.doneAt s.due 50000 := by
  constructor
  · intro h
    have hlate := h _ reachable_backedOff quiet_backedOff () 1 (by decide +kernel)
      (by decide +kernel)
    revert hlate
    decide +kernel
  · intro h
    have hlate := h _ reachable_lockedOut quiet_lockedOut () 1 (by decide +kernel)
      (by decide +kernel)
    revert hlate
    decide +kernel

end Post

end Cmpth

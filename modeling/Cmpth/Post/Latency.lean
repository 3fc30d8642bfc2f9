import Cmpth.Duty.Backoff
import Cmpth.Post.Scan

/-!
# The Latency of `SlotPostDelegator`

The delegator and the duty that polls it, with a clock that does not go back. The polls
are serves, and nobody else serves. `run` holds the registry lock, so that there is one
poll at a time; it may come at any time, early or late.

A poll moves the due time when it ends, by the period, which backs off while there is
nothing to serve. The posts it leaves uncovered are those that completed while it was
under way, unless it found the consumer locked and read no mark at all.

## Main definitions

* `Renewal`: What moved the due time last.
* `Prompt`: Every post that waits is served within the latency.
* `Renewed`: The due time counts from the last renewal, which no post has waited for.
* `Since`: The posts that a serve has still to cover are recent.
* `Scan.Timed`, `Scan.timed`: The delegator, its duty and the clock.

## Theorems

* `Since.step`: A step completes posts at its own time, and covers the others.
* `since_of_awaited`: Where every mark that has changed is about to be read.
* `awaited_turn`: A step of a server, of whose own list the claim is known.
* `Scan.awaited_next`: A server reads the marks it is about to read.
* `grows_next`: Posts are made and read, and never taken back.
* `covers_act`: A step of the delegator covers the posts of before, and its own are recent.
* `covers_locked`: Whoever has posted is on the list that the serve is about to go through.
* `serve_next`: A thread that is in a serve or a locked section moves by its own steps.
* `past_next`: A poll gets past that point by beginning to read, or by finding the consumer locked.
* `note_poll`, `note_blocked`, `note_trying`, `run_last`: What a step notes of a poll, and a run of
  the duty.
* `backs_run`: `run` leaves the period below the longest.
* `timedInv_init`, `timedInv_act`, `timedInv_run`, `timedInv_ran`, `timedInv_reachable`: The
  invariant, at the beginning and after the steps of each kind.
* `Scan.timedInv_next`: Every step keeps the invariant.
* `TimedInv.renewed`: Between operations, the due time is the period after the last poll, which left
  uncovered only what completed since it began, unless it found the consumer locked.
-/

namespace Cmpth

namespace Post

open Duty (Inner DutyPlace NEVER ns)

/-- What moved the due time last, a poll or a post that asked for one: when it began, when
    it moved the due time, and whether it is a poll that found the consumer locked. -/
structure Renewal where
  began : ℕ
  time : ℕ
  blocked : Bool
  deriving DecidableEq, Repr

/-- A poll under way in `run`: the thread, when `run` cleared the deadline, whether the
    consumer was locked, and what `serve_now` returns. -/
structure Poll (T : Type*) where
  thread : T
  began : ℕ
  blocked : Bool
  did : Bool
  deriving DecidableEq, Repr

section

variable {P : Type*}

/-- The completion times, after a step that completes the posts from `done` to `done'`. -/
def stamp (done done' : P → ℕ) (now : ℕ) (doneAt : P → ℕ → ℕ) : P → ℕ → ℕ :=
  fun p n => if done p < n ∧ n ≤ done' p then now else doneAt p n

/-- Posts that no server has read, and none is about to read, completed at that time or
    later. -/
def Since (seen done : P → ℕ) (doneAt : P → ℕ → ℕ) (awaited : P → Prop) (began : ℕ) : Prop :=
  ∀ p n, seen p < n → n ≤ done p → began ≤ doneAt p n ∨ awaited p

variable {seen done seen' done' : P → ℕ} {doneAt : P → ℕ → ℕ} {awaited awaited' : P → Prop}
  {began now : ℕ}

/-- A step that completes posts at its own time, and after which whoever was about to be
    read still is, or has been. -/
theorem Since.step (h : Since seen done doneAt awaited began) (hnow : began ≤ now)
    (hseen : ∀ p, seen p ≤ seen' p)
    (hawaited : ∀ p, awaited p → awaited' p ∨ done' p ≤ seen' p) :
    Since seen' done' (stamp done done' now doneAt) awaited' began := by
  intro p n hn hle
  unfold stamp
  by_cases hnew : done p < n
  · rw [if_pos ⟨hnew, hle⟩]
    exact .inl hnow
  · rw [if_neg fun hx => hnew hx.1]
    rcases h p n (lt_of_le_of_lt (hseen p) hn) (not_lt.mp hnew) with hx | hx
    · exact .inl hx
    · rcases hawaited p hx with hx | hread
      · exact .inr hx
      · omega

/-- Where every mark that has changed is about to be read. -/
theorem since_of_awaited (h : ∀ p, seen p < done p → awaited p) :
    Since seen done doneAt awaited began :=
  fun p _ hn hle => .inr (h p (lt_of_lt_of_le hn hle))

variable [DecidableEq P]

/-- The due time is no later than the latency after any post that is not yet covered. -/
def Prompt (log : List (List (Ticket P))) (done : P → ℕ) (doneAt : P → ℕ → ℕ)
    (due latency : ℕ) : Prop :=
  ∀ p n, lastServed p log.flatten < n → n ≤ done p → due ≤ doneAt p n + latency

/-- For a post that is not yet covered the due time is no later than the bound after the
    last renewal, which began before the post completed or found the consumer locked. -/
structure Renewed (log : List (List (Ticket P))) (done : P → ℕ) (doneAt : P → ℕ → ℕ)
    (r : Renewal) (clock due bound : ℕ) : Prop where
  past : r.began ≤ r.time ∧ r.time ≤ clock
  due : ∀ p n, lastServed p log.flatten < n → n ≤ done p →
    due ≤ r.time + bound ∧ (r.blocked = true ∨ r.began ≤ doneAt p n)

end

namespace Scan

/-- How far the polls of an idle delegator back off, in multiples of its latency. -/
def SLOT_BACKOFF : ℕ := 16

/-- `doneAt` has when each producer's posts completed, `renewal` the last poll. -/
structure Timed (P T : Type*) where
  scan : State P T
  inner : Inner
  poll : Option (Poll T)
  clock : ℕ
  doneAt : P → ℕ → ℕ
  renewal : Renewal

/-- A step, with the reading of the clock at it. -/
inductive TimedAction (P T : Type*) where
  /-- A step of a post, of a locked section, or of the serve of a poll. -/
  | act (a : Action P T) (now : ℕ)
  /-- `run` clears the deadline, and the poll calls `serve_now`. -/
  | run (t : T) (now : ℕ)
  /-- The poll has returned; `run` stores the time and the period. -/
  | ran (now : ℕ)

section

variable {P T : Type*} [DecidableEq P] [DecidableEq T]

/-- What a step tells of the poll: that it finds the consumer locked, or whether there is
    anything to serve. -/
def State.note (s : State P T) (a : Action P T) (q : Poll T) : Poll T :=
  if a = .step q.thread then
    match s.serve q.thread with
    | .trying => { q with blocked := s.busy }
    | .serving => { q with did := !s.batch.isEmpty }
    | .idle | .locked | .scanning _ | .unlocking | .spinning | .spinningTry | .inside => q
  else q

/-- Whoever is in `run` starts no locked section. -/
def Timed.free (s : Timed P T) : Action P T → Prop
  | .serveNow _ => False
  | .withLock t => ∀ q ∈ s.poll, q.thread ≠ t
  | .post _ | .postStep _ _ | .step _ => True

/-- When an action can be taken: time does not go back, and polls are made one at a time. -/
def timedGuard (s : Timed P T) : TimedAction P T → Prop
  | .act a now => s.clock ≤ now ∧ s.free a ∧ guard s.scan a
  | .run t now => s.clock ≤ now ∧ s.poll = none ∧ s.scan.serve t = .idle
  | .ran now => s.clock ≤ now ∧ ∃ q ∈ s.poll, s.scan.serve q.thread = .idle

/-- What an action does, and what it notes of the poll that is under way. -/
def timedNext (s : Timed P T) : TimedAction P T → Timed P T
  | .act a now =>
      { s with
        scan := next s.scan a
        poll := s.poll.map (s.scan.note a)
        clock := now
        doneAt := stamp s.scan.mark (next s.scan a).mark now s.doneAt }
  | .run t now =>
      { s with
        scan := next s.scan (.serveNow t)
        inner := { s.inner with deadline := NEVER }
        poll := some ⟨t, now, s.scan.busy, false⟩
        clock := now }
  | .ran now =>
      match s.poll with
      | none => s
      | some q =>
          { s with
            inner := Duty.Backoff.run s.inner q.did now
            poll := none
            clock := now
            renewal := ⟨q.began, now, q.blocked⟩ }

instance (s : Timed P T) : ∀ a, Decidable (s.free a)
  | .serveNow _ => isFalse id
  | .withLock t => inferInstanceAs (Decidable (∀ q ∈ s.poll, q.thread ≠ t))
  | .post _ | .postStep _ _ | .step _ => isTrue trivial

instance (s : Timed P T) : ∀ a, Decidable (timedGuard s a)
  | .act a now => inferInstanceAs (Decidable (s.clock ≤ now ∧ s.free a ∧ guard s.scan a))
  | .run t now =>
      inferInstanceAs (Decidable (s.clock ≤ now ∧ s.poll = none ∧ s.scan.serve t = .idle))
  | .ran now =>
      inferInstanceAs
        (Decidable (s.clock ≤ now ∧ ∃ q ∈ s.poll, s.scan.serve q.thread = .idle))

/-- `start`: the duty is registered. -/
def timedInit (latency : ℕ) (place : DutyPlace) (s : Timed P T) : Prop :=
  init s.scan ∧
    s.inner = Duty.newInner place s.clock (some (latency, latency * SLOT_BACKOFF)) latency ∧
    s.poll = none ∧ s.renewal = ⟨s.clock, s.clock, false⟩

/-- The delegator, its duty and the clock as a guarded transition system. -/
def timed (latency : ℕ) (place : DutyPlace) : System (Timed P T) (TimedAction P T) where
  init := timedInit latency place
  guard := timedGuard
  next := timedNext

instance (latency : ℕ) (place : DutyPlace) (s : Timed P T) (a : TimedAction P T) :
    Decidable ((timed latency place).guard s a) :=
  inferInstanceAs (Decidable (timedGuard s a))

end

section

variable {P T : Type*}

/-- No operation is in flight, and no poll. -/
def Timed.Quiet (s : Timed P T) : Prop :=
  Scan.Quiet s.scan ∧ s.poll = none

/-- The thread is past the point where its poll begins to read marks, or has seen that it
    cannot. -/
def ServePc.Past : ServePc P → Prop
  | .trying | .locked => False
  | .idle | .scanning _ | .serving | .unlocking | .spinning | .spinningTry | .inside => True

/-- A server is about to read the mark. -/
def Awaited (s : State P T) (p : P) : Prop :=
  ∃ t l, (s.serve t).Rest s.links l ∧ p ∈ l

/-- The posts that completed before that time are covered, or about to be. -/
def Timed.Covers (s : Timed P T) (began : ℕ) : Prop :=
  Since s.scan.seen s.scan.mark s.doneAt (Awaited s.scan) began

/-- The longest period. -/
def longest (latency : ℕ) : ℕ :=
  max 1000 (latency * SLOT_BACKOFF)

/-- What the duty has, so that its due time is the period after its last poll. -/
structure Backs (latency : ℕ) (i : Inner) : Prop where
  period : i.period ≤ longest latency
  minPeriod : i.minPeriod ≤ longest latency
  maxPeriod : i.maxPeriod ≤ longest latency
  waiters : i.waiters = 0

/-- The invariant: the last poll, and the one under way once it has begun to read marks,
    leave uncovered what completed since they began. -/
structure TimedInv [DecidableEq P] (latency : ℕ) (s : Timed P T) : Prop where
  kept : Kept s.scan
  backs : Backs latency s.inner
  last : s.inner.last = s.renewal.time
  past : s.renewal.began ≤ s.renewal.time ∧ s.renewal.time ≤ s.clock
  covers : s.renewal.blocked = true ∨ s.Covers s.renewal.began
  began : ∀ q, s.poll = some q → q.began ≤ s.clock
  poll : ∀ q, s.poll = some q → (s.scan.serve q.thread).Past →
    q.blocked = true ∨ s.Covers q.began

variable {P T : Type*} [DecidableEq P] [DecidableEq T] {s s' : State P T} {t : T}

omit [DecidableEq P] in
/-- A step of a server, of whose own list the claim is known. -/
theorem awaited_turn {p : P} {pc : ServePc P} (h : Awaited s p)
    (hserve : s'.serve = Function.update s.serve t pc) (hnext : s'.next = s.next)
    (hmine : ∀ l, (s.serve t).Rest s.links l → p ∈ l → Awaited s' p ∨ s'.mark p ≤ s'.seen p) :
    Awaited s' p ∨ s'.mark p ≤ s'.seen p := by
  rcases h with ⟨t', l, hl, hp⟩
  by_cases ht : t' = t
  · rw [ht] at hl
    exact hmine l hl hp
  · refine .inl ⟨t', l, ?_, hp⟩
    rwa [links_congr hnext, hserve, Function.update_of_ne ht]

/-- Whoever is about to be read still is after a step, or has been. -/
theorem awaited_next (hkept : Kept s) {a : Action P T} (hg : guard s a) {p : P}
    (h : Awaited s p) : Awaited (next s a) p ∨ (next s a).mark p ≤ (next s a).seen p := by
  -- Before these steps the thread prepares no serve.
  have hout : ∀ {t pc}, s.serve t = pc → (∀ l, ¬ pc.Rest s.links l) → ∀ {s' : State P T} {l},
      (s.serve t).Rest s.links l → p ∈ l → Awaited s' p ∨ s'.mark p ≤ s'.seen p := by
    rintro t _ rfl hx s' l hl _
    exact absurd hl (hx l)
  cases a with
  | post q =>
      change Awaited (if s.registered q = true then s.bump q else s.setPost q .registering) p ∨ _
      left
      split <;> exact h
  | postStep q spurious =>
      rcases hkept.registered with ⟨m, hm⟩
      rcases h with ⟨t, l, hl, hp⟩
      exact .inl ⟨t, l, (rest_postNext hm q spurious t l).mpr hl, hp⟩
  | serveNow t => exact awaited_turn h rfl rfl fun l => hout hg (fun _ => id)
  | withLock t => exact awaited_turn h rfl rfl fun l => hout hg (fun _ => id)
  | step t =>
      change Awaited (s.serveNext t) p ∨ (s.serveNext t).mark p ≤ (s.serveNext t).seen p
      unfold State.serveNext
      cases hpc : s.serve t with
      | idle => exact .inl h
      | trying | spinningTry =>
          dsimp only
          split <;> exact awaited_turn h rfl rfl fun l => hout hpc (fun _ => id)
      | locked | unlocking | spinning | inside =>
          exact awaited_turn h rfl rfl fun l => hout hpc (fun _ => id)
      | scanning q =>
          cases q with
          | none =>
              refine awaited_turn h rfl rfl fun l hl hp => ?_
              rw [hpc] at hl
              rw [Chain.eq_nil hl] at hp
              cases hp
          | some slot =>
              refine awaited_turn h rfl rfl fun l hl hp => ?_
              rw [hpc] at hl
              rcases Chain.eq_cons hl with ⟨q, k, rfl, hq, hk⟩
              cases hq
              rcases List.mem_cons.mp hp with rfl | hp
              · -- Its mark has just been read.
                right
                change s.mark p ≤ Function.update s.seen p _ p
                rw [Function.update_self, collect_fst]
              · refine .inl ⟨t, k, ?_, hp⟩
                change (Function.update s.serve t (.scanning (s.next slot)) t).Rest s.links k
                rw [Function.update_self]
                exact hk
      | serving =>
          refine awaited_turn h rfl rfl fun l hl hp => ?_
          rw [hpc] at hl
          rw [show l = [] from hl] at hp
          cases hp

/-- Posts are made and read, and never taken back. -/
theorem grows_next (hkept : Kept s) (a : Action P T) (p : P) :
    s.mark p ≤ (next s a).mark p ∧ s.seen p ≤ (next s a).seen p := by
  rcases hkept.booked.ledger with ⟨_, hledger⟩
  -- A mark grows by one at the store of its own producer.
  have hbump : ∀ q, s.mark p ≤ Function.update s.mark q (s.mark q + 1) p := by
    intro q
    by_cases hq : p = q
    · rw [hq, Function.update_self]
      exact Nat.le_succ _
    · rw [Function.update_of_ne hq]
  -- A step of the server stores what it has read, which is no less than before.
  cases a with
  | post q =>
      change s.mark p ≤ (if s.registered q = true then s.bump q else _).mark p ∧
        s.seen p ≤ (if s.registered q = true then s.bump q else _).seen p
      split
      · exact ⟨hbump q, le_rfl⟩
      · exact ⟨le_rfl, le_rfl⟩
  | postStep q spurious =>
      rcases postNext_frame s q spurious with ⟨_, _, hseen, _⟩
      change s.mark p ≤ (s.postNext q spurious).mark p ∧ s.seen p ≤ (s.postNext q spurious).seen p
      rw [hseen]
      refine ⟨?_, le_rfl⟩
      rcases postNext_mark s q spurious with hm | hm
      · rw [hm]
      · rw [hm]
        exact hbump q
  | serveNow t | withLock t => exact ⟨le_rfl, le_rfl⟩
  | step t =>
      change s.mark p ≤ (s.serveNext t).mark p ∧ s.seen p ≤ (s.serveNext t).seen p
      unfold State.serveNext
      cases s.serve t with
      | scanning q =>
          cases q with
          | none => exact ⟨le_rfl, le_rfl⟩
          | some slot =>
              refine ⟨le_rfl, ?_⟩
              change s.seen p ≤ Function.update s.seen slot _ p
              by_cases hp : p = slot
              · rw [hp, Function.update_self, collect_fst]
                exact hledger.le slot
              · rw [Function.update_of_ne hp]
      | trying | spinningTry =>
          dsimp only
          split <;> exact ⟨le_rfl, le_rfl⟩
      | idle | locked | serving | unlocking | spinning | inside => exact ⟨le_rfl, le_rfl⟩

end

section

variable {P T : Type*} [DecidableEq P] [DecidableEq T] {s : Timed P T} {latency now began : ℕ}

/-- A step of the delegator covers the posts of before, and its own are recent. -/
theorem covers_act (hkept : Kept s.scan) {a : Action P T} (hg : guard s.scan a)
    (hclock : s.clock ≤ now) (hbegan : began ≤ s.clock) (h : s.Covers began) :
    (timedNext s (.act a now)).Covers began :=
  Since.step h (hbegan.trans hclock) (fun p => (grows_next hkept a p).2)
    fun _ hp => awaited_next hkept hg hp

/-- Whoever has posted is on the list that the serve is about to go through. -/
theorem covers_locked (hkept : Kept s.scan) {t : T} (hpc : s.scan.serve t = .locked) :
    (timedNext s (.act (.step t) now)).Covers began := by
  refine since_of_awaited fun p hp => ?_
  rcases hkept.registered with ⟨l, hl⟩
  have hnext : next s.scan (.step t) =
      { s.scan.setServe t (.scanning s.scan.head) with batch := [] } := by
    change s.scan.serveNext t = _
    rw [State.serveNext, hpc]
  change Awaited (next s.scan (.step t)) p
  change (next s.scan (.step t)).seen p < (next s.scan (.step t)).mark p at hp
  rw [hnext] at hp ⊢
  refine ⟨t, l, ?_, (hl.known p).mp (hl.posted p ?_)⟩
  · change (Function.update s.scan.serve t (.scanning s.scan.head) t).Rest s.scan.links l
    rw [Function.update_self]
    exact hl.chain
  · exact Nat.ne_of_gt (Nat.zero_lt_of_lt hp)

/-- A thread that is in a serve or a locked section moves by its own steps. -/
theorem serve_next {s : State P T} {a : Action P T} {t : T} (hg : guard s a)
    (hbusy : s.serve t ≠ .idle) (ha : a ≠ .step t) : (next s a).serve t = s.serve t := by
  -- Calls begin on threads that are idle, so that another thread has begun.
  cases a with
  | post p =>
      change (if s.registered p = true then s.bump p else _).serve t = _
      split <;> rfl
  | postStep p spurious => exact congrFun (postNext_frame s p spurious).1 t
  | serveNow t' | withLock t' =>
      have hne : t ≠ t' := by
        rintro rfl
        exact hbusy hg
      exact Function.update_of_ne hne ..
  | step t' =>
      have hne : t ≠ t' := by
        rintro rfl
        exact ha rfl
      change (s.serveNext t').serve t = _
      unfold State.serveNext
      cases s.serve t' with
      | scanning q => cases q <;> exact Function.update_of_ne hne ..
      | trying | spinningTry =>
          dsimp only
          split <;> exact Function.update_of_ne hne ..
      | idle => rfl
      | locked | serving | unlocking | spinning | inside => exact Function.update_of_ne hne ..

/-- A poll gets past that point by beginning to read, or by finding the consumer locked. -/
theorem past_next {s : State P T} {a : Action P T} {t : T} (hg : guard s a)
    (h : ((next s a).serve t).Past) :
    (s.serve t).Past ∨
      a = .step t ∧ (s.serve t = .locked ∨ s.serve t = .trying ∧ s.busy = true) := by
  by_cases hpast : (s.serve t).Past
  · exact .inl hpast
  right
  have hbusy : s.serve t ≠ .idle := by
    intro hx
    rw [hx] at hpast
    exact hpast trivial
  -- Its own step is the one from `locked`, or a try that fails.
  by_cases ha : a = .step t
  · refine ⟨ha, ?_⟩
    subst ha
    change ((s.serveNext t).serve t).Past at h
    unfold State.serveNext at h
    cases hpc : s.serve t <;> rw [hpc] at hpast h
    case locked => exact .inl rfl
    case trying =>
      refine .inr ⟨rfl, ?_⟩
      by_contra hfree
      dsimp only at h
      rw [if_neg hfree] at h
      change (Function.update s.serve t _ t).Past at h
      rw [Function.update_self] at h
      exact h
    all_goals exact absurd trivial hpast
  · rw [serve_next hg hbusy ha] at h
    exact absurd h hpast

theorem note_poll (s : State P T) (a : Action P T) (q : Poll T) :
    (s.note a q).thread = q.thread ∧ (s.note a q).began = q.began := by
  unfold State.note
  split
  · split <;> exact ⟨rfl, rfl⟩
  · exact ⟨rfl, rfl⟩

theorem note_blocked {s : State P T} (a : Action P T) {q : Poll T}
    (h : (s.serve q.thread).Past) : (s.note a q).blocked = q.blocked := by
  unfold State.note
  split
  · split
    · next hpc =>
        rw [hpc] at h
        exact h.elim
    all_goals rfl
  · rfl

theorem note_trying {s : State P T} {q : Poll T} (hpc : s.serve q.thread = .trying)
    (hbusy : s.busy = true) : (s.note (.step q.thread) q).blocked = true := by
  unfold State.note
  rw [if_pos rfl, hpc]
  exact hbusy

/-- `run` leaves the period below the longest. -/
theorem backs_run {i : Inner} (h : Backs latency i) (did : Bool) (now : ℕ) :
    Backs latency (Duty.Backoff.run i did now) := by
  have hp := h.period
  have hmin := h.minPeriod
  have hmax := h.maxPeriod
  unfold Duty.Backoff.run Inner.finishRun
  split
  · exact ⟨hmin, hmin, hmax, h.waiters⟩
  · split
    · split
      · exact ⟨(min_le_right _ _).trans hmax, hmin, hmax, h.waiters⟩
      · exact ⟨hp, hmin, hmax, h.waiters⟩
    · exact ⟨hp, hmin, hmax, h.waiters⟩

theorem run_last (i : Inner) (did : Bool) (now : ℕ) :
    (Duty.Backoff.run i did now).last = now := by
  unfold Duty.Backoff.run Inner.finishRun
  split
  · rfl
  · split
    · split <;> rfl
    · rfl

omit [DecidableEq T] in
theorem timedInv_init {place : DutyPlace} (h : timedInit latency place s) :
    TimedInv latency s := by
  rcases h with ⟨hinit, hinner, hpoll, hrenewal⟩
  have hkept := kept_init hinit
  refine
    { kept := hkept
      backs := ?_
      last := by rw [hinner, hrenewal]; rfl
      past := by rw [hrenewal]; exact ⟨le_rfl, le_rfl⟩
      covers := .inr fun p n _ hle => ?_
      began := fun q hq => by rw [hpoll] at hq; cases hq
      poll := fun q hq => by rw [hpoll] at hq; cases hq }
  · have hns : ns latency ≤ latency := min_le_left _ _
    have hns' : ns (latency * SLOT_BACKOFF) ≤ latency * SLOT_BACKOFF := min_le_left _ _
    have hle : latency ≤ latency * SLOT_BACKOFF := Nat.le_mul_of_pos_right _ (by decide)
    have hmin : max (ns latency) 1000 ≤ longest latency := by
      unfold longest
      omega
    have hmax : max (ns (latency * SLOT_BACKOFF)) (max (ns latency) 1000) ≤ longest latency := by
      unfold longest at hmin ⊢
      omega
    rw [hinner]
    exact ⟨hmin, hmin, hmax, rfl⟩
  · -- There are no posts.
    rw [hinit.1 p] at hle
    omega

theorem timedInv_act (h : TimedInv latency s) {a : Action P T} (hclock : s.clock ≤ now)
    (hg : guard s.scan a) : TimedInv latency (timedNext s (.act a now)) := by
  have hcovers : ∀ {began}, began ≤ s.clock → s.Covers began →
      (timedNext s (.act a now)).Covers began :=
    fun hbegan hx => covers_act h.kept hg hclock hbegan hx
  refine
    { kept := kept_next h.kept hg
      backs := h.backs
      last := h.last
      past := ⟨h.past.1, h.past.2.trans hclock⟩
      covers := h.covers.imp_right (hcovers (h.past.1.trans h.past.2))
      began := fun q' hq' => ?_
      poll := fun q' hq' hpast => ?_ }
  · rcases Option.map_eq_some_iff.mp hq' with ⟨q, hq, rfl⟩
    rw [(note_poll ..).2]
    exact (h.began q hq).trans hclock
  · rcases Option.map_eq_some_iff.mp hq' with ⟨q, hq, rfl⟩
    rw [(note_poll ..).1] at hpast
    rw [(note_poll ..).2]
    -- Past the point before; by its read; or blocked by the lock.
    rcases past_next hg hpast with hbefore | ⟨rfl, hpc | ⟨hpc, hbusy⟩⟩
    · rw [note_blocked a hbefore]
      exact (h.poll q hq hbefore).imp_right (hcovers (h.began q hq))
    · exact .inr (covers_locked h.kept hpc)
    · exact .inl (note_trying hpc hbusy)

theorem timedInv_run (h : TimedInv latency s) {t : T} (hclock : s.clock ≤ now)
    (hidle : s.scan.serve t = .idle) : TimedInv latency (timedNext s (.run t now)) := by
  -- A poll that begins has read no mark yet.
  have hcovers : ∀ {began}, s.Covers began → (timedNext s (.run t now)).Covers began := by
    intro began hx p n hn hle
    refine (hx p n hn hle).imp_right fun hp => ?_
    rcases hp with ⟨t', l, hl, hmem⟩
    have hne : t' ≠ t := by
      rintro rfl
      rw [hidle] at hl
      exact hl
    refine ⟨t', l, ?_, hmem⟩
    change (Function.update s.scan.serve t _ t').Rest s.scan.links l
    rwa [Function.update_of_ne hne]
  refine
    { kept := kept_next (a := .serveNow t) h.kept hidle
      backs := ⟨h.backs.period, h.backs.minPeriod, h.backs.maxPeriod, h.backs.waiters⟩
      last := h.last
      past := ⟨h.past.1, h.past.2.trans hclock⟩
      covers := h.covers.imp_right hcovers
      began := fun q hq => ?_
      poll := fun q hq hpast => ?_ }
  · cases hq
    exact le_rfl
  · cases hq
    left
    change s.scan.busy = true
    by_contra hfree
    change (Function.update s.scan.serve t (if s.scan.busy = true then _ else _) t).Past at hpast
    rw [Function.update_self, if_neg hfree] at hpast
    exact hpast

theorem timedInv_ran (h : TimedInv latency s) {q : Poll T} (hq : s.poll = some q)
    (hclock : s.clock ≤ now) (hidle : s.scan.serve q.thread = .idle) :
    TimedInv latency (timedNext s (.ran now)) := by
  have hnext : timedNext s (.ran now) =
      { s with
        inner := Duty.Backoff.run s.inner q.did now
        poll := none
        clock := now
        renewal := ⟨q.began, now, q.blocked⟩ } := by
    rw [timedNext, hq]
  rw [hnext]
  exact
    { kept := h.kept
      backs := backs_run h.backs q.did now
      last := run_last ..
      past := ⟨(h.began q hq).trans hclock, le_rfl⟩
      covers := h.poll q hq (by rw [hidle]; trivial)
      began := fun _ hx => by cases hx
      poll := fun _ hx => by cases hx }

/-- Every step keeps the invariant. -/
theorem timedInv_next (h : TimedInv latency s) {a : TimedAction P T} (hg : timedGuard s a) :
    TimedInv latency (timedNext s a) := by
  cases a with
  | act a now => exact timedInv_act h hg.1 hg.2.2
  | run t now => exact timedInv_run h hg.1 hg.2.2
  | ran now =>
      rcases hg with ⟨hclock, q, hq, hidle⟩
      exact timedInv_ran h hq hclock hidle

theorem timedInv_reachable {place : DutyPlace} (h : (timed latency place).Reachable s) :
    TimedInv latency s :=
  h.induct (P := TimedInv latency) (fun _ => timedInv_init)
    fun _ _ hs hg => timedInv_next hs hg

omit [DecidableEq T] in
/-- Between operations, the due time is the period after the last poll, which left
    uncovered only what completed since it began, unless it found the consumer locked. -/
theorem TimedInv.renewed (h : TimedInv latency s) (hq : s.Quiet) :
    s.inner.period ≤ longest latency ∧
      Renewed s.scan.log s.scan.mark s.doneAt s.renewal s.clock s.inner.due s.inner.period := by
  refine ⟨h.backs.period, h.past, fun p n hn hle => ⟨?_, ?_⟩⟩
  · rw [← h.last]
    unfold Inner.due Inner.effectivePeriod Duty.saturatingAdd
    rw [if_neg (not_not.mpr h.backs.waiters)]
    omega
  · have hserved := ((h.kept.quiet hq.1).served rfl).lastServed_eq p
    refine h.covers.imp_right fun hcovers => ?_
    refine (hcovers p n (by rwa [← hserved]) hle).resolve_right ?_
    rintro ⟨t, l, hl, _⟩
    rw [hq.1.2 t] at hl
    exact hl

end

end Scan

end Post

end Cmpth

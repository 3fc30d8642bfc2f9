import Cmpth.Idle.Counters

/-!
# Who Still Looks

A worker that registered and then found a queue empty will not look at it again
before it sleeps, unless the epoch moves. Everybody else who is awake and
without a task will. What a single step can do to either is said here once; the
two policies argue from it.

## Main definitions

* `Pc.awake`: Between tasks, and not asleep.
* `Worker.seen`: Registered at this epoch, and through with the queue.
* `Worker.willLook`: Awake, and not through with the queue.
* `Worker.LooksAt`: A registered worker does not stop before it has looked.
* `LooksEverywhere`: This holds of every queue.
* `ProducerPc.announces`: The queue a producer has not yet bumped the epoch for.

## Theorems

* `unchanged_iff`, `ticket_of_unchanged`, `ticket_of_blocked`: What the compare of a wait says of
  the epoch.
* `looked_of_blocked`: A blocked worker is through with every queue, if its ticket is fresh.
* `not_blocked_of_awake`, `start_awake`, `resume_awake`, `blocked_of_wake`: Who is awake, and who is
  blocked.
* `parkNoWork_cases`: A worker without a ticket starts over or registers; one with a ticket waits.
* `noWork_cases`: The same of `no_work_found` under either policy.
* `frame_go`: Only `wake_one` moves the epoch, and only a search takes tasks.
* `seen_go`: Whoever is through with a queue after a step was before, or has just found it empty.
* `awake_go`: An awake worker that goes on stays awake or falls asleep, until the pool is shut down.
* `late_go`: How a worker gets past the last check of `finished`, and how it falls asleep.
* `blocked_go`: Whoever falls asleep has a fresh ticket.
* `seen_step`: Whoever is through with a queue was before or has just found it empty.
* `awake_step`: An awake worker stays awake, finds a task or falls asleep.
* `late_step`: A step past the last check of `finished`.
* `blocked_step`: Whoever falls asleep is through with every queue.
* `taken_step`: Whoever takes a task takes one that is there.
* `seen_wake`: Being woken shows no queue to a worker that it had not seen.
* `awake_of_wake`: Waking somebody leaves whoever is awake awake.
* `wake_awake`: Whoever is woken is awake.
* `seen_before`: No ticket is from the future: not from after the next bump.
* `not_seen_succ`: After a bump nobody is through with anything.
* `queue_apply_le`: A worker's step pushes nothing.
-/

namespace Cmpth

namespace Idle

variable {W P : Type*}

/-- Between tasks, and not asleep. -/
def Pc.awake : Pc W → Bool
  | .head | .searching _ _ | .noWork _ | .trying _ _ | .overCap _ | .parkNow | .registering
  | .waitLoad _ | .waitFinished _ | .waitCompare _ | .waitLock _ | .returned => true
  | .running | .found | .leaving _ | .baton | .waking _ | .blocked _ | .exited => false

/-- The queue is behind the worker, which goes on to sleep if it is
    registered. -/
def Pc.looked (q : Queue W) : Pc W → Bool
  | .searching passed retry => passed q && !retry
  | .noWork retry => !retry
  | .waitLoad _ | .waitFinished _ | .waitCompare _ | .waitLock _ | .blocked _ => true
  | .running | .head | .found | .leaving _ | .baton | .waking _ | .trying _ _ | .overCap _
  | .parkNow | .registering | .returned | .exited => false

/-- Registered at this epoch, and through with the queue. -/
def Worker.seen (epoch : Nat) (q : Queue W) (wk : Worker W) : Prop :=
  wk.ticket = some epoch ∧ wk.pc.looked q = true

/-- Awake, and not through with the queue. -/
def Worker.willLook (epoch : Nat) (q : Queue W) (wk : Worker W) : Prop :=
  wk.pc.awake = true ∧ ¬ wk.seen epoch q

instance (epoch : Nat) (q : Queue W) (wk : Worker W) : Decidable (wk.seen epoch q) :=
  inferInstanceAs (Decidable (_ ∧ _))

instance (epoch : Nat) (q : Queue W) (wk : Worker W) : Decidable (wk.willLook epoch q) :=
  inferInstanceAs (Decidable (_ ∧ _))

/-- A registered worker does not stop searching before it has looked at the
    queue, or knows that it has to search again. -/
def Worker.LooksAt (q : Queue W) (wk : Worker W) (st : Step W) : Prop :=
  st = .giveUp → wk.ticket ≠ none →
    ∀ passed, wk.pc = .searching passed false → passed q = true

/-- The search of a registered worker looks at every queue. -/
def LooksEverywhere (s : State W P) : Action W P → Prop
  | .work w st => ∀ q, (s.worker w).LooksAt q st
  | _ => True

/-- The queue a producer has pushed to and not yet bumped the epoch for. -/
def ProducerPc.announces : ProducerPc W → Option (Queue W)
  | .loadSearching q | .loadSleepers q | .waking q .bump => some q
  | .idle | .waking _ .pass | .waking _ .notify => none

/-- The ticket is not so old that the epoch could have come round. -/
def Worker.InTime (epoch : Nat) (wk : Worker W) : Prop :=
  ∀ seen, wk.ticket = some seen → seen ≤ epoch ∧ epoch < seen + 2 ^ 32

theorem unchanged_iff {epoch seen : Nat} (h : seen ≤ epoch ∧ epoch < seen + 2 ^ 32) :
    unchanged epoch seen = true ↔ epoch = seen := by
  unfold unchanged
  rw [beq_iff_eq]
  omega

theorem ticket_of_unchanged {v : View} {wk : Worker W} (ht : wk.InTime v.epoch)
    (h : wk.unchanged v = true) : wk.ticket = some v.epoch := by
  unfold Worker.unchanged at h
  cases hx : wk.ticket with
  | none =>
      rw [hx] at h
      cases h
  | some seen =>
      rw [hx, Option.any_some] at h
      rw [(unchanged_iff (ht seen hx)).mp h]

/-- A blocked worker is through with every queue, if its ticket is fresh. -/
theorem looked_of_blocked {pc : Pc W} (h : pc.isBlocked = true) (q : Queue W) :
    pc.looked q = true := by
  cases pc <;> first | rfl | cases h

theorem ticket_of_blocked {c : Config} {wk : Worker W} (hok : wk.Ok c)
    (h : wk.pc.isBlocked = true) : wk.ticket ≠ none := by
  unfold Worker.Ok at hok
  cases hpc : wk.pc <;> rw [hpc] at h hok <;> first | exact hok.1 | cases h

theorem not_blocked_of_awake {pc : Pc W} (h : pc.awake = true) : pc.isBlocked = false := by
  cases pc <;> first | rfl | cases h

theorem start_awake (x : ParkWait) (timed : Bool) : (x.start timed : Pc W).awake = true := by
  cases x <;> rfl

theorem resume_awake (x : ParkWait) (timed : Bool) : (x.resume timed : Pc W).awake = true := by
  cases x <;> cases timed <;> rfl

/-- Awake, with every queue still ahead. -/
def Pc.ahead (pc : Pc W) : Prop :=
  pc.awake = true ∧ ∀ q, pc.looked q = false

section

variable {c : Config} {v : View} {wk : Worker W} {spin timed : Bool}

/-- A worker without a ticket starts over or registers; one with a ticket
    waits. -/
theorem parkNoWork_cases (c : Config) (wk : Worker W) (timed : Bool) :
    (parkNoWork c wk timed).worker.pc.ahead ∨
      wk.ticket ≠ none ∧ parkNoWork c wk timed = { worker := wk.moveTo (c.wait.start timed) } := by
  unfold parkNoWork
  cases ht : wk.ticket with
  | none =>
      left
      simp only
      split <;> exact ⟨rfl, fun _ => rfl⟩
  | some seen => exact .inr ⟨nofun, rfl⟩

/-- The same of `no_work_found` under either policy. -/
theorem noWork_cases (c : Config) (v : View) (spin timed : Bool) {retry : Bool}
    (hpc : wk.pc = .noWork retry) :
    (wk.go c v spin timed).worker.pc.ahead ∨
      retry = false ∧ wk.ticket ≠ none ∧
        wk.go c v spin timed = { worker := wk.moveTo (c.wait.start timed) } := by
  have hhead : (Pc.head : Pc W).ahead := ⟨rfl, fun _ => rfl⟩
  have htry : ∀ n r, (Pc.trying n r : Pc W).ahead := fun _ _ => ⟨rfl, fun _ => rfl⟩
  simp only [Worker.go, hpc]
  -- After a retry the worker searches again at once; else the policy decides.
  cases retry with
  | true =>
      left
      split
      · exact hhead
      · unfold searchNoWork
        rw [if_pos rfl]
        split
        · exact htry _ _
        · exact hhead
  | false =>
      have hpark := parkNoWork_cases c wk timed
      split
      · simpa using hpark
      · unfold searchNoWork
        rw [if_neg Bool.false_ne_true]
        split
        · simpa using hpark
        left
        split
        · exact htry _ _
        split
        · exact hhead
        · exact ⟨rfl, fun _ => rfl⟩

/-- Only `wake_one` moves the epoch, and only a search takes tasks. -/
theorem frame_go (c : Config) (v : View) (spin timed : Bool) (wk : Worker W) :
    (wk.go c v spin timed).taken = none ∧
      (wk.pc ≠ .waking .bump → (wk.go c v spin timed).epoch = 0) := by
  -- Parking takes no task and makes no bump.
  have hpark : (parkNoWork c wk timed).taken = none ∧ (parkNoWork c wk timed).epoch = 0 := by
    unfold parkNoWork
    split
    · exact ⟨rfl, rfl⟩
    · split <;> exact ⟨rfl, rfl⟩
  cases hpc : wk.pc <;> simp only [Worker.go, hpc]
  case found =>
    unfold workFound
    split
    · exact ⟨rfl, fun _ => rfl⟩
    · simp only
      split <;> exact ⟨rfl, fun _ => rfl⟩
  case noWork retry =>
    split
    · split
      · exact ⟨rfl, fun _ => rfl⟩
      · exact ⟨hpark.1, fun _ => hpark.2⟩
    · unfold searchNoWork
      repeat' split
      all_goals first | exact ⟨rfl, fun _ => rfl⟩ | exact ⟨hpark.1, fun _ => hpark.2⟩
  case waking x =>
    cases x with
    | bump => exact ⟨rfl, fun h => absurd rfl h⟩
    | _ => exact ⟨rfl, fun _ => rfl⟩
  case parkNow => exact ⟨hpark.1, fun _ => hpark.2⟩
  case trying => split <;> exact ⟨rfl, fun _ => rfl⟩
  case leaving | returned => exact ⟨rfl, fun _ => rfl⟩
  all_goals exact ⟨trivial, fun _ => trivial⟩

/-- Whoever is through with a queue after a step was before, or has just found
    it empty. -/
theorem seen_go {q : Queue W} {n : Nat} (hok : wk.Ok c)
    (h : (wk.go c v spin timed).worker.seen n q) :
    wk.seen n q ∧ (wk.go c v spin timed).epoch = 0 := by
  unfold Worker.Ok at hok
  -- A worker that bumps the epoch has no ticket, so it is through with nothing.
  have hepoch : wk.pc ≠ .waking .bump := by
    intro hpc
    have hl := h.2
    simp only [Worker.go, hpc, Worker.moveTo] at hl
    cases hl
  refine ⟨?_, (frame_go c v spin timed wk).2 hepoch⟩
  rcases h with ⟨ht, hl⟩
  -- The step goes on with the wait, or goes back to looking, where the queue is ahead again.
  cases hpc : wk.pc <;> rw [hpc] at hok
  case noWork retry =>
    rcases noWork_cases c v spin timed hpc with hahead | ⟨hr, _, hgo⟩
    · rw [hahead.2 q] at hl
      cases hl
    · rw [hgo] at ht
      exact ⟨ht, by rw [hpc, hr]; rfl⟩
  case parkNow =>
    rcases parkNoWork_cases c wk timed with hahead | ⟨hne, _⟩
    · simp only [Worker.go, hpc, hahead.2 q] at hl
      cases hl
    · exact absurd hok.1 hne
  case waitLoad | waitFinished | waitCompare | waitLock | blocked =>
    simp only [Worker.go, hpc, Worker.moveTo] at ht
    exact ⟨ht, by rw [hpc]; rfl⟩
  case searching | exited =>
    have hstay : wk.go c v spin timed = { worker := wk } := by simp only [Worker.go, hpc]
    rw [hstay] at ht hl
    exact ⟨ht, hl⟩
  case found =>
    have hleave : ∃ last, (wk.go c v spin timed).worker.pc = .leaving last := by
      simp only [Worker.go, hpc, workFound]
      split
      · exact ⟨_, rfl⟩
      · split <;> exact ⟨_, rfl⟩
    rcases hleave with ⟨last, hlast⟩
    rw [hlast] at hl
    cases hl
  case waking x =>
    cases x with
    | bump => exact absurd hpc hepoch
    | _ => simp only [Worker.go, hpc, Worker.moveTo] at hl; cases hl
  case running | registering | returned =>
    simp only [Worker.go, hpc] at hl
    cases hl
  case leaving last =>
    simp only [Worker.go, hpc, Worker.unregister] at hl
    cases last <;> cases hl
  all_goals
    simp only [Worker.go, hpc, Worker.moveTo, Worker.startParking] at hl
    split at hl <;> cases hl

/-- An awake worker that goes on stays awake or falls asleep, until the pool is
    shut down. -/
theorem awake_go (hf : v.finished = false) (h : wk.pc.awake = true) :
    (wk.go c v spin timed).worker.pc.awake = true ∨
      (wk.go c v spin timed).worker.pc.isBlocked = true := by
  -- Only the two accesses of a wait put a worker to sleep.
  cases hpc : wk.pc <;> rw [hpc] at h
  case noWork retry =>
    rcases noWork_cases c v spin timed hpc with hahead | ⟨_, _, hgo⟩
    · exact .inl hahead.1
    · rw [hgo]
      exact .inl (start_awake _ _)
  case parkNow =>
    simp only [Worker.go, hpc]
    rcases parkNoWork_cases c wk timed with hahead | ⟨_, hgo⟩
    · exact .inl hahead.1
    · rw [hgo]
      exact .inl (start_awake _ _)
  case head => simp [Worker.go, hpc, hf, Worker.moveTo, Pc.awake]
  case searching => simp [Worker.go, hpc, Pc.awake]
  case waitCompare | waitLock =>
    simp only [Worker.go, hpc]
    split
    · exact .inr rfl
    · exact .inl rfl
  case registering | returned =>
    simp only [Worker.go, hpc]
    exact .inl rfl
  case running | found | leaving | baton | waking | blocked | exited => cases h
  all_goals
    simp only [Worker.go, hpc]
    split <;> exact .inl rfl

/-- Past the last check of `finished` of a wait. -/
def Pc.late : Pc W → Bool
  | .waitCompare _ | .blocked _ => true
  | _ => false

/-- How a worker gets past the last check of `finished`, and how it falls
    asleep. -/
theorem late_go (h : (wk.go c v spin timed).worker.pc.late = true) :
    (wk.go c v spin timed).worker.pc.isBlocked = false ∧ v.finished = false ∨
      ((∃ t, wk.pc = .waitCompare t) ∨ v.finished = false) ∧ wk.unchanged v = true ∧
        (wk.go c v spin timed).worker.ticket = wk.ticket ∧ (wk.go c v spin timed).epoch = 0 := by
  -- A wait begins before its last check, and so does a round.
  have hearly : ∀ {x : ParkWait} {t : Bool}, (x.start t : Pc W).late ≠ true := by
    intro x t
    cases x <;> nofun
  have hahead : ∀ {pc : Pc W}, pc.ahead → pc.late ≠ true := by
    intro pc ha hl
    cases pc <;> cases hl
    · exact nomatch ha.2 none
    · cases ha.1
  -- The check is `waitFinished`, or the lock of a `CondvarWait`.
  cases hpc : wk.pc
  case waitFinished t =>
    simp only [Worker.go, hpc] at h ⊢
    by_cases hf : v.finished = true
    · rw [if_pos hf] at h
      cases h
    · rw [if_neg hf]
      exact .inl ⟨rfl, by simpa using hf⟩
  case waitCompare t =>
    right
    simp only [Worker.go, hpc] at h ⊢
    by_cases hu : wk.unchanged v = true
    · exact ⟨.inl ⟨t, rfl⟩, hu, rfl, trivial⟩
    · rw [if_neg hu] at h
      cases h
  case waitLock t =>
    right
    simp only [Worker.go, hpc] at h ⊢
    by_cases hu : (wk.unchanged v && !v.finished) = true
    · exact ⟨.inr (by simpa using Bool.and_elim_right hu), Bool.and_elim_left hu, rfl, trivial⟩
    · rw [if_neg hu] at h
      cases h
  case noWork retry =>
    rcases noWork_cases c v spin timed hpc with ha | ⟨_, _, hgo⟩
    · exact absurd h (hahead ha)
    · rw [hgo] at h
      exact absurd h hearly
  case parkNow =>
    simp only [Worker.go, hpc] at h
    rcases parkNoWork_cases c wk timed with ha | ⟨_, hgo⟩
    · exact absurd h (hahead ha)
    · rw [hgo] at h
      exact absurd h hearly
  case blocked t =>
    simp only [Worker.go, hpc, Worker.moveTo] at h
    cases hw : c.wait <;> rw [hw] at h <;> cases t <;> cases h
  case found =>
    simp only [Worker.go, hpc, workFound] at h
    split at h
    · cases h
    · split at h <;> cases h
  case waking x =>
    cases x with
    | notify =>
        rw [show wk.go c v spin timed = { worker := wk } by simp only [Worker.go, hpc], hpc] at h
        cases h
    | _ =>
        simp only [Worker.go, hpc] at h
        cases h
  case running | registering | returned =>
    simp only [Worker.go, hpc] at h
    cases h
  case leaving last =>
    simp only [Worker.go, hpc, Worker.unregister] at h
    cases last <;> cases h
  case searching | exited =>
    rw [show wk.go c v spin timed = { worker := wk } by simp only [Worker.go, hpc], hpc] at h
    cases h
  all_goals
    simp only [Worker.go, hpc, Worker.moveTo, Worker.startParking] at h
    split at h <;> cases h

/-- Whoever falls asleep has a fresh ticket. -/
theorem blocked_go (ht : wk.InTime v.epoch)
    (h : (wk.go c v spin timed).worker.pc.isBlocked = true) :
    (wk.go c v spin timed).worker.ticket = some v.epoch ∧ (wk.go c v spin timed).epoch = 0 := by
  have hlate : (wk.go c v spin timed).worker.pc.late = true := by
    cases hpc : (wk.go c v spin timed).worker.pc <;> rw [hpc] at h <;> first | rfl | cases h
  rcases late_go hlate with ⟨hnot, _⟩ | ⟨_, hu, htk, h0⟩
  · rw [hnot] at h
    cases h
  · exact ⟨htk.trans (ticket_of_unchanged ht hu), h0⟩

end

section

variable [DecidableEq W] {c : Config} {v : View} {wk : Worker W} {q : Queue W}

/-- Whoever is through with a queue after a step was before, or has just found
    it empty. -/
theorem seen_step {w : W} {queue : Queue W → Nat} {st : Step W} {n : Nat} (hok : wk.Ok c)
    (hr : wk.ready w queue st = true) (hl : wk.LooksAt q st)
    (h : (wk.step c v st).worker.seen n q) :
    (wk.step c v st).epoch = 0 ∧ (wk.seen n q ∨ queue q = 0) := by
  -- It is through with a queue by a visit that finds it empty.
  cases st with
  | go spin timed => exact ⟨(seen_go hok h).2, .inl (seen_go hok h).1⟩
  | help q' => exact ⟨rfl, .inl h⟩
  | giveUp =>
      cases hpc : wk.pc <;> simp only [Worker.ready, Worker.mayGiveUp, hpc] at hr <;>
        try cases hr
      case searching passed retry =>
        simp only [Worker.step, hpc] at h ⊢
        refine ⟨trivial, .inl ⟨h.1, ?_⟩⟩
        have hretry : retry = false := by simpa [Worker.moveTo, Pc.looked] using h.2
        subst hretry
        have hpassed := hl rfl (by rw [show wk.ticket = _ from h.1]; simp) passed hpc
        simp [hpc, Pc.looked, hpassed]
  | visit q' x =>
      cases hpc : wk.pc <;> simp only [Worker.ready, hpc] at hr <;> try cases hr
      case searching passed retry =>
        cases x with
        | take =>
            simp only [Worker.step, hpc] at h
            exact nomatch h.2
        | retry =>
            simp only [Worker.step, hpc, Worker.seen, Worker.moveTo, Pc.looked] at h
            simp at h
        | empty =>
            simp only [Worker.step, hpc] at h ⊢
            refine ⟨trivial, ?_⟩
            by_cases hq : q = q'
            · subst hq
              exact .inr (by simpa using hr)
            · refine .inl ⟨h.1, ?_⟩
              have hlooked := h.2
              simp only [Worker.moveTo, Pc.looked, Function.update_of_ne hq] at hlooked
              rwa [hpc]

/-- An awake worker stays awake, finds a task or falls asleep. -/
theorem awake_step {w : W} {queue : Queue W → Nat} {st : Step W} (hf : v.finished = false)
    (hr : wk.ready w queue st = true) (h : wk.pc.awake = true) :
    (wk.step c v st).worker.pc.awake = true ∨
      (wk.step c v st).worker.pc.isBlocked = true ∨
      (wk.step c v st).worker.pc = .found ∧ (wk.step c v st).taken ≠ none := by
  cases st with
  | go spin timed => exact (awake_go hf h).imp_right .inl
  | help q' =>
      cases hpc : wk.pc <;> simp only [Worker.ready, hpc] at hr h <;> first | cases hr | cases h
  | giveUp =>
      cases hpc : wk.pc <;> simp only [Worker.ready, Worker.mayGiveUp, hpc] at hr <;>
        try cases hr
      case searching passed retry =>
        simp only [Worker.step, hpc]
        exact .inl rfl
  | visit q' x =>
      cases hpc : wk.pc <;> simp only [Worker.ready, hpc] at hr <;> try cases hr
      case searching passed retry =>
        cases x <;> simp only [Worker.step, hpc]
        · exact .inr (.inr ⟨rfl, (by simp)⟩)
        · exact .inl rfl
        · exact .inl rfl

theorem late_step {w : W} {queue : Queue W → Nat} {st : Step W}
    (hr : wk.ready w queue st = true) (h : (wk.step c v st).worker.pc.late = true) :
    (wk.step c v st).worker.pc.isBlocked = false ∧ v.finished = false ∨
      ((∃ t, wk.pc = .waitCompare t) ∨ v.finished = false) ∧ wk.unchanged v = true := by
  cases st with
  | go spin timed => exact (late_go h).imp_right fun h => ⟨h.1, h.2.1⟩
  | help q' =>
      cases hpc : wk.pc <;> simp only [Worker.ready, Worker.step, hpc] at hr h <;>
        first | cases hr | cases h
  | giveUp =>
      cases hpc : wk.pc <;> simp only [Worker.ready, Worker.mayGiveUp, hpc] at hr <;>
        try cases hr
      simp only [Worker.step, hpc] at h
      cases h
  | visit q' x =>
      cases hpc : wk.pc <;> simp only [Worker.ready, hpc] at hr <;> try cases hr
      cases x <;> simp only [Worker.step, hpc] at h <;> cases h

/-- Whoever falls asleep is through with every queue. -/
theorem blocked_step {w : W} {queue : Queue W → Nat} {st : Step W} (ht : wk.InTime v.epoch)
    (hr : wk.ready w queue st = true) (h : (wk.step c v st).worker.pc.isBlocked = true)
    (q : Queue W) : (wk.step c v st).worker.seen (v.epoch + (wk.step c v st).epoch) q := by
  cases st with
  | go spin timed =>
      have hfresh := blocked_go ht h
      refine ⟨?_, looked_of_blocked h q⟩
      simp only [Worker.step]
      rw [hfresh.1, hfresh.2, Nat.add_zero]
  | help q' =>
      cases hpc : wk.pc <;> simp only [Worker.ready, Worker.step, hpc] at hr h <;>
        first | cases hr | cases h
  | giveUp =>
      cases hpc : wk.pc <;> simp only [Worker.ready, Worker.mayGiveUp, hpc] at hr <;>
        try cases hr
      case searching passed retry =>
        simp only [Worker.step, hpc] at h
        cases h
  | visit q' x =>
      cases hpc : wk.pc <;> simp only [Worker.ready, hpc] at hr <;> try cases hr
      case searching passed retry =>
        cases x <;> simp only [Worker.step, hpc] at h <;> cases h

/-- Whoever takes a task takes one that is there. -/
theorem taken_step {w : W} {queue : Queue W → Nat} {st : Step W}
    (hr : wk.ready w queue st = true) (h : (wk.step c v st).taken = some q) : 0 < queue q := by
  cases st with
  | go spin timed =>
      rw [show (wk.step c v (.go spin timed)).taken = none from (frame_go ..).1] at h
      cases h
  | help q' =>
      simp only [Worker.step, Option.some.injEq] at h
      subst h
      cases hpc : wk.pc <;> simp only [Worker.ready, hpc] at hr <;> try cases hr
      simpa using hr
  | giveUp =>
      cases hpc : wk.pc <;> simp only [Worker.step, hpc] at h <;> cases h
  | visit q' x =>
      cases hpc : wk.pc <;> simp only [Worker.ready, hpc] at hr <;> try cases hr
      cases x <;> simp only [Worker.step, hpc, Option.some.injEq] at h <;> try cases h
      simpa using hr

/-- Being woken shows no queue to a worker that it had not seen. -/
theorem seen_wake {s : State W P} {target : Option W} {epoch : Nat} {w : W}
    (h : ((s.wake c target).worker w).seen epoch q) : (s.worker w).seen epoch q := by
  by_cases hb : (s.worker w).pc.isBlocked = true
  · exact ⟨(ticket_wake s target w).symm.trans h.1, looked_of_blocked hb q⟩
  · rwa [wake_worker_of_awake (by simpa using hb)] at h

theorem blocked_of_wake {s : State W P} {target : Option W} {w : W}
    (h : ((s.wake c target).worker w).pc.isBlocked = true) :
    (s.worker w).pc.isBlocked = true := by
  by_contra hb
  rw [wake_worker_of_awake (by simpa using hb)] at h
  exact hb h

/-- Waking somebody leaves whoever is awake awake. -/
theorem awake_of_wake {s : State W P} {target : Option W} {w : W}
    (h : (s.worker w).pc.awake = true) : ((s.wake c target).worker w).pc.awake = true := by
  rwa [wake_worker_of_awake (not_blocked_of_awake h)]

omit [DecidableEq W] in
/-- Whoever is woken is awake. -/
theorem wake_awake (h : wk.pc.isBlocked = true) : (wk.wake c).pc.awake = true := by
  cases hpc : wk.pc <;> rw [hpc] at h <;> try cases h
  simp only [Worker.wake, hpc]
  exact resume_awake _ _

omit [DecidableEq W] in
/-- No ticket is from the future: not from after the next bump. -/
theorem seen_before [Fintype W] {s : State W P} (h : Counts c s) {w : W} {n : Nat}
    (hs : (s.worker w).seen (s.epoch + n) q) : (s.worker w).seen s.epoch q := by
  have hle := h.ticket w _ hs.1
  have hn : n = 0 := by omega
  subst hn
  exact hs

omit [DecidableEq W] in
theorem not_seen_succ [Fintype W] {s : State W P} (h : Counts c s) (w : W) :
    ¬ (s.worker w).seen (s.epoch + 1) q := fun hs =>
  absurd (h.ticket w _ hs.1) (by omega)

theorem queue_apply_le (s : State W P) (w : W) (e : Effect W) (q : Queue W) :
    (s.apply w e).queue q ≤ s.queue q := by
  unfold State.apply
  cases e.taken with
  | none => exact le_rfl
  | some q' =>
      by_cases hq : q = q'
      · subst hq
        simp
      · simp [Function.update_of_ne hq]

end

end Idle

end Cmpth

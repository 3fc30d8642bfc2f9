import Mathlib.Algebra.BigOperators.Ring.Finset
import Cmpth.Core.Count
import Cmpth.Idle.Policy

/-!
# Tickets and Counters

What holds of every worker by itself, and what `sleepers` and `searching`
count. Nothing here depends on the order of steps or on the width of the
epoch.

## Main definitions

* `Worker.Ok`: Where a worker has a ticket, and where it may be a searcher.
* `registered`, `counted`: What a worker adds to the two counters.
* `Counts`: The invariant.

## Theorems

* `place_running`, `place_baton`, `place_leaving`, `place_head`, `place_noWork`, `place_trying`,
  `place_overCap`, `place_parkNow`, `place_registering`, `place_returned`: Where each pc is.
* `ok_fresh`: A worker that has not begun.
* `sound_stay`: A step within a part of the loop that leaves the counters alone.
* `start_place`, `resume_place`: A wait is a wait, with either primitive.
* `sound_parkNoWork`: `no_work_found` of `ParkIdle`, called where nothing but the ticket counts.
* `sound_searchNoWork`, `sound_workFound`, `sound_unregister`, `sound_go`, `sound_step`: A step of a
  worker changes the counters by what it adds to them.
* `loop_of_since`: A searcher is between the calls of the policy, and not registered.
* `since_of_park`: Under `ParkIdle` nobody is a searcher.
* `sound_wake`: Being woken changes nothing here.
* `ticket_step`: A ticket is an epoch the worker has read.
* `wake_ticket`, `wake_of_awake`, `ticket_wake`: A wake takes no ticket, and leaves the awake alone.
* `wake_worker_of_awake`: Whoever is awake is not touched when somebody is woken.
* `producer_wake`, `queue_wake`, `epoch_wake`, `finished_wake`: A wake changes workers only.
* `quiet_place`, `pc_of_notifies`: Where a worker touches no counter, and where it wakes another.
* `Counts.update`: One worker moves, and the counters with it.
* `Counts.same`: Nothing but the epoch moves.
* `Counts.wake`, `counts_step`: The counters count after every action.
* `counts_reachable`: It holds of every reachable state.
* `Counts.sleepers_nonneg`, `Counts.searching_nonneg`: The counters do not fall below zero.
* `Counts.no_ticket`: Whoever finds no sleeper finds no ticket.
* `Counts.searching_park`: Under `ParkIdle` there are no searchers.
* `Counts.some_searcher`: Whoever finds a searcher finds one that counts.
* `Counts.other_searcher`: A searcher that is not the last one leaves another one behind.
* `Counts.sleepers_quiet`: Where nothing is in flight, the sleepers are the tickets.
* `Counts.searching_quiet`: Where nothing is in flight, the searching are the searchers.
-/

namespace Cmpth

namespace Idle

variable {W P : Type*}

/-- The parts of the loop, as far as tickets and searchers go. -/
inductive Place where
  /-- With a task, and through with `work_found`. -/
  | busy
  /-- With a task, and still registered if it was. -/
  | leaving
  /-- Between the calls of the policy. -/
  | loop
  | trying
  | parking
  | registering
  /-- From the wait to the end of the registration. -/
  | waiting
  deriving DecidableEq, Repr

/-- The place of a worker, as far as the counters are concerned. -/
def Pc.place : Pc W → Place
  | .running | .baton | .waking _ => .busy
  | .leaving _ => .leaving
  | .head | .searching _ _ | .noWork _ | .found | .exited => .loop
  | .trying _ _ | .overCap _ => .trying
  | .parkNow => .parking
  | .registering => .registering
  | .waitLoad _ | .waitFinished _ | .waitCompare _ | .waitLock _ | .blocked _ | .returned =>
      .waiting

@[simp] theorem place_running : (Pc.running : Pc W).place = .busy := rfl
@[simp] theorem place_baton : (Pc.baton : Pc W).place = .busy := rfl
@[simp] theorem place_leaving (last : Bool) : (Pc.leaving last : Pc W).place = .leaving := rfl
@[simp] theorem place_head : (Pc.head : Pc W).place = .loop := rfl
@[simp] theorem place_noWork (retry : Bool) : (Pc.noWork retry : Pc W).place = .loop := rfl
@[simp] theorem place_trying (n : Int) (r : Bool) : (Pc.trying n r : Pc W).place = .trying := rfl
@[simp] theorem place_overCap (retry : Bool) : (Pc.overCap retry : Pc W).place = .trying := rfl
@[simp] theorem place_parkNow : (Pc.parkNow : Pc W).place = .parking := rfl
@[simp] theorem place_registering : (Pc.registering : Pc W).place = .registering := rfl
@[simp] theorem place_returned : (Pc.returned : Pc W).place = .waiting := rfl

/-- Where a worker has a ticket, and where it may be a searcher. -/
def Worker.Ok (c : Config) (wk : Worker W) : Prop :=
  match wk.pc.place with
  | .busy => wk.ticket = none ∧ wk.since = false
  | .leaving => wk.since = false
  | .loop =>
      (wk.since = true → wk.ticket = none ∧ wk.parking = false ∧ c.policy = .search) ∧
        (c.policy = .search → wk.ticket ≠ none → wk.parking = true)
  | .trying => wk.ticket = none ∧ wk.since = false ∧ wk.parking = false ∧ c.policy = .search
  | .parking | .registering =>
      wk.ticket = none ∧ wk.since = false ∧ (c.policy = .search → wk.parking = true)
  | .waiting => wk.ticket ≠ none ∧ wk.since = false ∧ (c.policy = .search → wk.parking = true)

/-- What a worker adds to `sleepers`. -/
def Worker.registered (wk : Worker W) : Int :=
  if wk.pc.place = .registering ∨ wk.ticket ≠ none then 1 else 0

/-- What a worker adds to `searching`. -/
def Worker.counted (wk : Worker W) : Int :=
  if wk.pc.place = .trying ∨ wk.since = true then 1 else 0

/-- A step leaves the worker in order, and the counters change by what it
    counts for. -/
structure Effect.Sound (c : Config) (wk : Worker W) (e : Effect W) : Prop where
  ok : e.worker.Ok c
  sleepers : e.worker.registered = wk.registered + e.sleepers
  searching : e.worker.counted = wk.counted + e.searching

theorem ok_fresh (c : Config) : (Worker.fresh : Worker W).Ok c :=
  ⟨(fun h => nomatch h), fun _ h => absurd rfl h⟩

/-- A step within a part of the loop that leaves the counters alone. -/
theorem sound_stay {c : Config} {wk : Worker W} (h : wk.Ok c) {pc : Pc W}
    (hp : pc.place = wk.pc.place) {ep n : Nat} {q : Option (Queue W)} :
    Effect.Sound c wk
      { worker := { wk with pc := pc, rounds := n }, epoch := ep, taken := q } where
  ok := by
    simp only [Worker.Ok, hp]
    exact h
  sleepers := by simp only [Worker.registered, hp, Int.add_zero]
  searching := by simp only [Worker.counted, hp, Int.add_zero]

theorem start_place (x : ParkWait) (timed : Bool) :
    (x.start timed : Pc W).place = .waiting := by
  cases x <;> rfl

theorem resume_place (x : ParkWait) (timed : Bool) :
    (x.resume timed : Pc W).place = .waiting := by
  cases x <;> cases timed <;> rfl

/-- `no_work_found` of `ParkIdle`, called where nothing but the ticket counts. -/
theorem sound_parkNoWork {c : Config} {wk : Worker W} {timed : Bool} (hs : wk.since = false)
    (hp : c.policy = .search → wk.parking = true) (hr : wk.pc.place ≠ .registering)
    (hc : wk.pc.place ≠ .trying) :
    (parkNoWork c wk timed).Sound c wk := by
  unfold parkNoWork
  -- Without a ticket it registers or looks on; with one it begins to wait.
  cases ht : wk.ticket with
  | none =>
      simp only
      split
      · refine ⟨⟨fun h => absurd (hs.symm.trans h) (by simp), fun _ h => absurd rfl h⟩, ?_, ?_⟩
        · simp [Worker.registered, hr, ht]
        · simp [Worker.counted, hc, hs]
      · refine ⟨⟨rfl, hs, hp⟩, ?_, ?_⟩
        · simp [Worker.registered, hr, ht]
        · simp [Worker.counted, hc, hs]
  | some e =>
      have hticket : wk.ticket ≠ none := by rw [ht]; simp
      refine ⟨?_, ?_, ?_⟩
      · simp only [Worker.Ok, Worker.moveTo, start_place]
        exact ⟨hticket, hs, hp⟩
      · simp [Worker.registered, Worker.moveTo, start_place, hr, ht]
      · simp [Worker.counted, Worker.moveTo, start_place, hc, hs]

theorem sound_searchNoWork {c : Config} {v : View} {wk : Worker W} {retry spin timed : Bool}
    (hpc : wk.pc = .noWork retry) (h : wk.Ok c) (hc : c.policy = .search) :
    (searchNoWork c v wk retry spin timed).Sound c wk := by
  have hplace : wk.pc.place = .loop := by rw [hpc]; rfl
  have hloop := h
  simp only [Worker.Ok, hplace] at hloop
  rcases hloop with ⟨hs, hp⟩
  -- A worker that is no searcher and does not park has no ticket.
  have htry : wk.since = false → wk.parking = false → ∀ n r,
      Effect.Sound c wk { worker := wk.moveTo (.trying n r), searching := 1 } := by
    intro hsf hpf n r
    have ht : wk.ticket = none := by
      by_contra hne
      rw [hp hc hne] at hpf
      cases hpf
    refine ⟨⟨ht, hsf, hpf, hc⟩, ?_, ?_⟩
    · simp [Worker.registered, Worker.moveTo, hplace, ht]
    · simp [Worker.counted, Worker.moveTo, hplace, hsf]
  unfold searchNoWork
  by_cases hr : retry = true
  · rw [if_pos hr]
    by_cases htr : (!wk.since && !wk.parking) = true
    · rw [if_pos htr]
      simp only [Bool.and_eq_true, Bool.not_eq_true'] at htr
      exact htry htr.1 htr.2 _ _
    · rw [if_neg htr]
      exact sound_stay h (by rw [hplace]; rfl)
  rw [if_neg hr]
  by_cases hpk : wk.parking = true
  · rw [if_pos hpk]
    have hsf : wk.since = false := by
      by_contra hne
      have hpf := (hs (by simpa using hne)).2.1
      rw [hpk] at hpf
      cases hpf
    exact sound_parkNoWork hsf (fun _ => hpk) (by rw [hplace]; simp) (by rw [hplace]; simp)
  rw [if_neg hpk]
  by_cases hsf : (!wk.since) = true
  · rw [if_pos hsf]
    exact htry (by simpa using hsf) (by simpa using hpk) _ _
  rw [if_neg hsf]
  split
  · exact sound_stay h (by rw [hplace]; rfl)
  · -- The searcher gives up and parks.
    have hst : wk.since = true := by simpa using hsf
    refine ⟨⟨(hs hst).1, rfl, fun _ => rfl⟩, ?_, ?_⟩
    · simp [Worker.registered, Worker.startParking, hplace, (hs hst).1]
    · simp [Worker.counted, Worker.startParking, hplace, hst]

theorem sound_workFound {c : Config} {v : View} {wk : Worker W} (hpc : wk.pc = .found)
    (h : wk.Ok c) : (workFound c v wk).Sound c wk := by
  have hplace : wk.pc.place = .loop := by rw [hpc]; rfl
  have hloop := h
  simp only [Worker.Ok, hplace] at hloop
  rcases hloop with ⟨hs, hp⟩
  unfold workFound
  -- Under `park` it was not counted; under `search` it is counted out, if it was in.
  cases hc : c.policy with
  | park =>
      have hsf : wk.since = false := by
        by_contra hne
        have hpol := (hs (by simpa using hne)).2.2
        rw [hc] at hpol
        cases hpol
      refine ⟨hsf, ?_, ?_⟩
      · simp [Worker.registered, Worker.moveTo, hplace]
      · simp [Worker.counted, Worker.moveTo, hplace]
  | search =>
      simp only
      split
      · next hst =>
          refine ⟨rfl, ?_, ?_⟩
          · simp [Worker.registered, Worker.moveTo, hplace]
          · simp [Worker.counted, Worker.moveTo, hplace, hst]
      · next hsf =>
          refine ⟨rfl, ?_, ?_⟩
          · simp [Worker.registered, Worker.moveTo, hplace]
          · simp [Worker.counted, Worker.moveTo, hplace, hsf]

theorem sound_unregister {c : Config} {wk : Worker W} {pc : Pc W}
    (hr : wk.pc.place ≠ .registering) (hs : wk.since = false) (hc : wk.pc.place ≠ .trying)
    (hpc : pc.place = .busy ∨ pc.place = .loop) : (wk.unregister pc).Sound c wk := by
  have hnr : pc.place ≠ .registering := by rcases hpc with hpc | hpc <;> rw [hpc] <;> simp
  have hnt : pc.place ≠ .trying := by rcases hpc with hpc | hpc <;> rw [hpc] <;> simp
  refine ⟨?_, ?_, ?_⟩
  · unfold Worker.Ok Worker.unregister
    rcases hpc with hpc | hpc <;> rw [hpc]
    · exact ⟨rfl, hs⟩
    · exact ⟨fun h => absurd (hs.symm.trans h) (by simp), fun _ h => absurd rfl h⟩
  · cases ht : wk.ticket <;> simp [Worker.registered, Worker.unregister, hnr, hr, ht]
  · simp [Worker.counted, Worker.unregister, hnt, hc, hs]

/-- A searcher is between the calls of the policy, and not registered. -/
theorem loop_of_since {c : Config} {wk : Worker W} (h : wk.Ok c) (hs : wk.since = true) :
    wk.pc.place = .loop ∧ wk.ticket = none := by
  unfold Worker.Ok at h
  cases hp : wk.pc.place <;> rw [hp] at h
  case loop => exact ⟨rfl, (h.1 hs).1⟩
  case leaving => rw [h] at hs; cases hs
  case busy => rw [h.2] at hs; cases hs
  all_goals
    rw [h.2.1] at hs
    cases hs

/-- Under `ParkIdle` nobody is a searcher. -/
theorem since_of_park {c : Config} {wk : Worker W} (h : wk.Ok c) (hc : c.policy = .park) :
    wk.since = false := by
  by_contra hne
  have hs : wk.since = true := by simpa using hne
  have hloop := loop_of_since h hs
  unfold Worker.Ok at h
  rw [hloop.1] at h
  rw [(h.1 hs).2.2] at hc
  cases hc

theorem sound_go {c : Config} {v : View} {spin timed : Bool} {wk : Worker W} (h : wk.Ok c) :
    (wk.go c v spin timed).Sound c wk := by
  have hok := h
  unfold Worker.Ok at hok
  -- The ticket is taken at `registering` and given back at `leaving`; between them the counters
  -- stay.
  cases hpc : wk.pc <;> rw [hpc] at hok <;> simp only [Worker.go, hpc]
  case running =>
    refine ⟨⟨fun h => absurd (hok.2.symm.trans h) (by simp), fun _ h => absurd hok.1 h⟩, ?_, ?_⟩
    · simp [Worker.registered, Worker.moveTo, hpc]
    · simp [Worker.counted, Worker.moveTo, hpc]
  case head => split <;> exact sound_stay h (by rw [hpc]; rfl)
  case found => exact sound_workFound hpc h
  case leaving last =>
    cases last <;> exact sound_unregister (by simp [hpc]) hok (by simp [hpc]) (.inl rfl)
  case baton => split <;> exact sound_stay h (by rw [hpc]; rfl)
  case waking x =>
    cases x with
    | notify => exact sound_stay h rfl
    | _ => exact sound_stay h (by rw [hpc]; rfl)
  case noWork retry =>
    split
    · next hc =>
      split
      · exact sound_stay h (by rw [hpc]; rfl)
      · refine sound_parkNoWork (since_of_park h hc) ?_ (by simp [hpc]) (by simp [hpc])
        rw [hc]
        exact fun h => nomatch h
    · next hc => exact sound_searchNoWork hpc h hc
  -- The exchange that joins the searchers succeeds, or the worker looks again.
  case trying n retry =>
    rcases hok with ⟨ht, hs, hp, hc⟩
    split
    · refine ⟨⟨fun _ => ⟨ht, hp, hc⟩, fun _ h => absurd ht h⟩, ?_, ?_⟩
      · simp [Worker.registered, hpc, ht]
      · simp [Worker.counted, hpc]
    · exact sound_stay h (by rw [hpc]; rfl)
  case overCap retry =>
    rcases hok with ⟨ht, hs, hp, hc⟩
    split
    · refine ⟨⟨fun h => absurd (hs.symm.trans h) (by simp), fun _ h => absurd ht h⟩, ?_, ?_⟩
      · simp [Worker.registered, Worker.moveTo, hpc, ht]
      · simp [Worker.counted, Worker.moveTo, hpc, hs]
    · refine ⟨⟨ht, hs, fun _ => rfl⟩, ?_, ?_⟩
      · simp [Worker.registered, Worker.startParking, hpc, ht]
      · simp [Worker.counted, Worker.startParking, hpc, hs]
  case parkNow =>
    exact sound_parkNoWork hok.2.1 hok.2.2 (by simp [hpc]) (by simp [hpc])
  case registering =>
    rcases hok with ⟨ht, hs, hp⟩
    refine ⟨⟨fun h => absurd (hs.symm.trans h) (by simp), fun hc _ => hp hc⟩, ?_, ?_⟩
    · simp [Worker.registered, hpc]
    · simp [Worker.counted, hpc, hs]
  case waitLoad | waitFinished | waitCompare | waitLock =>
    split <;> exact sound_stay h (by rw [hpc]; rfl)
  case blocked => exact sound_stay h (by rw [hpc]; exact resume_place _ _)
  case returned =>
    exact sound_unregister (by simp [hpc]) hok.2.1 (by simp [hpc]) (.inr rfl)
  case searching | exited => exact sound_stay h rfl

theorem sound_step [DecidableEq W] {c : Config} {v : View} {wk : Worker W} (h : wk.Ok c)
    (st : Step W) : (wk.step c v st).Sound c wk := by
  cases st with
  | go spin timed => exact sound_go h
  | visit q x =>
      cases hpc : wk.pc with
      | searching passed retry =>
          cases x <;> simp only [Worker.step, hpc] <;> exact sound_stay h (by rw [hpc]; rfl)
      | _ => simp only [Worker.step, hpc]; exact sound_stay h rfl
  | giveUp =>
      cases hpc : wk.pc with
      | searching passed retry =>
          simp only [Worker.step, hpc]
          exact sound_stay h (by rw [hpc]; rfl)
      | _ => simp only [Worker.step, hpc]; exact sound_stay h rfl
  | help q => exact sound_stay h rfl

/-- Being woken changes nothing here. -/
theorem sound_wake {c : Config} {wk : Worker W} (h : wk.Ok c) :
    Effect.Sound c wk { worker := wk.wake c } := by
  cases hpc : wk.pc <;> simp only [Worker.wake, hpc]
  case blocked => exact sound_stay h (by rw [hpc]; exact resume_place _ _)
  all_goals exact sound_stay h rfl

/-- A ticket is an epoch the worker has read. -/
theorem ticket_step [DecidableEq W] (c : Config) (v : View) (wk : Worker W) (st : Step W) :
    (wk.step c v st).worker.ticket = wk.ticket ∨ (wk.step c v st).worker.ticket = none ∨
      (wk.step c v st).worker.ticket = some v.epoch := by
  -- Only `registering` reads the epoch, and only the end of an episode forgets it.
  cases st with
  | go spin timed =>
      cases hpc : wk.pc <;> simp only [Worker.step, Worker.go, hpc]
      case registering => simp
      case leaving | returned => exact .inr (.inl rfl)
      case waking x => cases x <;> exact .inl rfl
      case found => left; unfold workFound; split <;> first | rfl | (split <;> rfl)
      case noWork retry =>
        left
        have hpark : (parkNoWork c wk timed).worker.ticket = wk.ticket := by
          unfold parkNoWork
          split
          · rfl
          · split <;> rfl
        split
        · split
          · rfl
          · exact hpark
        · unfold searchNoWork
          repeat' split
          all_goals first | rfl | exact hpark
      case parkNow =>
        left
        unfold parkNoWork
        split
        · rfl
        · split <;> rfl
      all_goals first | exact .inl trivial | exact .inl rfl | (left; split <;> rfl)
  | visit q x =>
      left
      cases hpc : wk.pc <;> cases x <;> (simp only [Worker.step, hpc]; try rfl)
  | giveUp =>
      left
      cases hpc : wk.pc <;> (simp only [Worker.step, hpc]; try rfl)
  | help q => exact .inl rfl

theorem wake_ticket {c : Config} (wk : Worker W) : (wk.wake c).ticket = wk.ticket := by
  unfold Worker.wake
  split <;> rfl

theorem wake_of_awake {c : Config} {wk : Worker W} (h : wk.pc.isBlocked = false) :
    wk.wake c = wk := by
  cases hpc : wk.pc <;> simp only [Worker.wake, hpc]
  case blocked timed =>
    rw [hpc] at h
    cases h

/-- Whoever is awake is not touched when somebody is woken. -/
theorem wake_worker_of_awake [DecidableEq W] {c : Config} {s : State W P} {target : Option W}
    {w : W} (h : (s.worker w).pc.isBlocked = false) :
    (s.wake c target).worker w = s.worker w := by
  cases target with
  | none => rfl
  | some t =>
      by_cases hw : w = t
      · subst hw
        exact (Function.update_self ..).trans (wake_of_awake h)
      · exact Function.update_of_ne hw ..

section

variable [DecidableEq W] {c : Config}

@[simp] theorem producer_wake (s : State W P) (target : Option W) :
    (s.wake c target).producer = s.producer := by
  cases target <;> rfl

@[simp] theorem queue_wake (s : State W P) (target : Option W) :
    (s.wake c target).queue = s.queue := by
  cases target <;> rfl

@[simp] theorem epoch_wake (s : State W P) (target : Option W) :
    (s.wake c target).epoch = s.epoch := by
  cases target <;> rfl

@[simp] theorem finished_wake (s : State W P) (target : Option W) :
    (s.wake c target).finished = s.finished := by
  cases target <;> rfl

end

theorem ticket_wake [DecidableEq W] {c : Config} (s : State W P) (target : Option W) (w : W) :
    ((s.wake c target).worker w).ticket = (s.worker w).ticket := by
  cases target with
  | none => rfl
  | some t =>
      by_cases hw : w = t
      · subst hw
        simp only [State.wake, Function.update_self, wake_ticket]
      · simp only [State.wake, Function.update_of_ne hw]

theorem quiet_place {pc : Pc W} (h : pc.quiet = true) :
    pc.place ≠ .registering ∧ pc.place ≠ .trying := by
  cases pc <;> first | (cases h; done) | exact ⟨nofun, nofun⟩

theorem pc_of_notifies {pc : Pc W} (h : pc.notifies = true) : pc = .waking .notify := by
  unfold Pc.notifies at h
  split at h
  · rfl
  · cases h

section

variable [DecidableEq W] [DecidableEq P] [Fintype W] {c : Config} {s s' : State W P}

/-- Every worker is in order, the counters count, and no ticket is from the
    future. -/
structure Counts (c : Config) (s : State W P) : Prop where
  ok : ∀ w, (s.worker w).Ok c
  sleepers : s.sleepers = ∑ w, (s.worker w).registered
  searching : s.searching = ∑ w, (s.worker w).counted
  ticket : ∀ w seen, (s.worker w).ticket = some seen → seen ≤ s.epoch

omit [DecidableEq P] in
/-- One worker moves, and the counters with it. -/
theorem Counts.update (h : Counts c s) {w : W} {e : Effect W} (hs : e.Sound c (s.worker w))
    (hw : s'.worker = Function.update s.worker w e.worker)
    (hsl : s'.sleepers = s.sleepers + e.sleepers)
    (hsr : s'.searching = s.searching + e.searching) (he : s.epoch ≤ s'.epoch)
    (ht : ∀ seen, e.worker.ticket = some seen → seen ≤ s'.epoch) : Counts c s' where
  ok := by
    intro x
    rw [hw]
    -- What the others add to a counter is as before, so the sum changes by what `w` adds.
    by_cases hx : x = w
    · rw [hx, Function.update_self]
      exact hs.ok
    · rw [Function.update_of_ne hx]
      exact h.ok x
  sleepers := by
    have hsum := sum_update s.worker Worker.registered w e.worker
    have hold := h.sleepers
    have hone := hs.sleepers
    rw [hw]
    omega
  searching := by
    have hsum := sum_update s.worker Worker.counted w e.worker
    have hold := h.searching
    have hone := hs.searching
    rw [hw]
    omega
  ticket := by
    intro x
    rw [hw]
    by_cases hx : x = w
    · rw [hx, Function.update_self]
      exact ht
    · rw [Function.update_of_ne hx]
      exact fun seen hseen => (h.ticket x seen hseen).trans he

omit [DecidableEq W] [DecidableEq P] in
/-- Nothing but the epoch moves. -/
theorem Counts.same (h : Counts c s) (hw : s'.worker = s.worker) (hs : s'.sleepers = s.sleepers)
    (hn : s'.searching = s.searching) (he : s.epoch ≤ s'.epoch) : Counts c s' where
  ok := hw ▸ h.ok
  sleepers := by rw [hs, hw, h.sleepers]
  searching := by rw [hn, hw, h.searching]
  ticket w seen hx := (h.ticket w seen (hw ▸ hx)).trans he

omit [DecidableEq P] in
theorem Counts.wake (h : Counts c s) (target : Option W) : Counts c (s.wake c target) := by
  cases target with
  | none => exact h
  | some t =>
      refine h.update (w := t) (sound_wake (h.ok t)) rfl (Int.add_zero _).symm
        (Int.add_zero _).symm le_rfl fun seen ht => h.ticket t seen ?_
      rwa [wake_ticket] at ht

theorem counts_step (h : Counts c s) (a : Action W P) (hg : guard s a) :
    Counts c (next c s a) := by
  -- A worker's step changes the counters by what it says; producers touch neither.
  cases a with
  | work w st =>
      refine h.update (w := w) (sound_step (h.ok w) st) rfl rfl rfl (Nat.le_add_right _ _)
        fun seen ht => le_trans ?_ (Nat.le_add_right _ _)
      rcases ticket_step c s.view (s.worker w) st with hx | hx | hx <;>
        rw [hx] at ht
      · exact h.ticket w seen ht
      · cases ht
      · exact (Option.some.inj ht).ge
  | notify w target =>
      have hwake := h.wake target
      have hpc : ((s.wake c target).worker w).pc.place = .busy := by
        have hnot := pc_of_notifies hg.1
        rw [wake_worker_of_awake (by rw [hnot]; rfl), hnot]
        rfl
      exact hwake.update (w := w) (e := { worker := _ })
        (sound_stay (hwake.ok w) (by rw [hpc]; rfl)) rfl (Int.add_zero _).symm
        (Int.add_zero _).symm le_rfl fun seen ht => hwake.ticket w seen ht
  | wakeOne p q target => exact (h.wake target).same rfl rfl rfl le_rfl
  | wakeAll =>
      refine ⟨fun w => (sound_wake (h.ok w)).ok, ?_, ?_, fun w seen ht => h.ticket w seen ?_⟩
      · exact h.sleepers.trans (Finset.sum_congr rfl fun w _ =>
          ((sound_wake (h.ok w)).sleepers.trans (Int.add_zero _)).symm)
      · exact h.searching.trans (Finset.sum_congr rfl fun w _ =>
          ((sound_wake (h.ok w)).searching.trans (Int.add_zero _)).symm)
      · rwa [← wake_ticket (c := c)]
  | bump | closeBump => exact h.same rfl rfl rfl (Nat.le_succ _)
  | publish | loadSearching | loadSleepers | pass | finish | closePass =>
      exact h.same rfl rfl rfl le_rfl

theorem counts_reachable (h : (system c).Reachable s) : Counts c s := by
  refine h.induct (fun s hi => ?_) fun s a h hg => counts_step h a hg
  rcases hi with ⟨hw, _, hs, hn, _⟩
  refine ⟨fun w => ?_, ?_, ?_, fun w seen ht => ?_⟩
  · rw [hw w]
    exact ok_fresh c
  · simp [hs, hw, Worker.registered, Worker.fresh]
  · simp [hn, hw, Worker.counted, Worker.fresh]
  · rw [hw w] at ht
    cases ht

omit [DecidableEq W] [DecidableEq P] in
theorem Counts.sleepers_nonneg (h : Counts c s) : 0 ≤ s.sleepers := by
  rw [h.sleepers]
  refine Finset.sum_nonneg fun w _ => ?_
  unfold Worker.registered
  split <;> omega

omit [DecidableEq W] [DecidableEq P] in
theorem Counts.searching_nonneg (h : Counts c s) : 0 ≤ s.searching := by
  rw [h.searching]
  refine Finset.sum_nonneg fun w _ => ?_
  unfold Worker.counted
  split <;> omega

omit [DecidableEq W] [DecidableEq P] in
/-- Whoever finds no sleeper finds no ticket. -/
theorem Counts.no_ticket (h : Counts c s) (h0 : s.sleepers = 0) (w : W) :
    (s.worker w).ticket = none := by
  rw [h.sleepers, Finset.sum_eq_zero_iff_of_nonneg] at h0
  · have hw := h0 w (Finset.mem_univ w)
    unfold Worker.registered at hw
    by_contra hne
    rw [if_pos (.inr hne)] at hw
    cases hw
  · intro x _
    unfold Worker.registered
    split <;> omega

omit [DecidableEq W] [DecidableEq P] in
/-- Under `ParkIdle` there are no searchers. -/
theorem Counts.searching_park (h : Counts c s) (hc : c.policy = .park) : s.searching = 0 := by
  refine h.searching.trans (Finset.sum_eq_zero fun w _ => if_neg fun hor => ?_)
  have hok := h.ok w
  rcases hor with hplace | hs
  · unfold Worker.Ok at hok
    rw [hplace] at hok
    rw [hok.2.2.2] at hc
    cases hc
  · rw [since_of_park hok hc] at hs
    cases hs

omit [DecidableEq W] [DecidableEq P] in
/-- Whoever finds a searcher finds one that counts. -/
theorem Counts.some_searcher (h : Counts c s) (h0 : s.searching ≠ 0) :
    ∃ w, (s.worker w).counted ≠ 0 := by
  by_contra hnone
  push Not at hnone
  exact h0 (h.searching.trans (Finset.sum_eq_zero fun w _ => hnone w))

omit [DecidableEq W] [DecidableEq P] in
/-- A searcher that is not the last one leaves another one behind. -/
theorem Counts.other_searcher (h : Counts c s) {w : W} (hw : (s.worker w).since = true)
    (h1 : s.searching ≠ 1) : ∃ x, x ≠ w ∧ (s.worker x).counted ≠ 0 := by
  by_contra hnone
  push Not at hnone
  have hone : (s.worker w).counted = 1 := if_pos (.inr hw)
  refine h1 (h.searching.trans ?_)
  rw [Finset.sum_eq_single w (fun x _ hx => hnone x hx) fun hx => absurd (Finset.mem_univ w) hx]
  exact hone

omit [DecidableEq W] [DecidableEq P] in
/-- Where nothing is in flight, the sleepers are the tickets. -/
theorem Counts.sleepers_quiet (h : Counts c s) (hq : Quiet s) :
    s.sleepers = (Finset.univ.filter fun w => (s.worker w).ticket.isSome).card := by
  rw [h.sleepers, Finset.card_filter, Nat.cast_sum]
  refine Finset.sum_congr rfl fun w _ => ?_
  have hpc := (quiet_place (hq.workers w)).1
  cases ht : (s.worker w).ticket <;> simp [Worker.registered, hpc, ht]

omit [DecidableEq W] [DecidableEq P] in
/-- Where nothing is in flight, the searching are the searchers. -/
theorem Counts.searching_quiet (h : Counts c s) (hq : Quiet s) :
    s.searching = (Finset.univ.filter fun w => (s.worker w).since = true).card := by
  rw [h.searching, Finset.card_filter, Nat.cast_sum]
  refine Finset.sum_congr rfl fun w _ => ?_
  have hpc := (quiet_place (hq.workers w)).2
  cases hs : (s.worker w).since <;> simp [Worker.counted, hpc, hs]

end

end Idle

end Cmpth

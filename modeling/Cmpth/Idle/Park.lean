import Cmpth.Idle.Looking

/-!
# `ParkIdle` Loses No Wakeup

While nobody shuts the pool down, every task that is queued when a worker
sleeps is accounted for: by a worker that will still search, or by the
`new_work` of a producer.

Two invariants carry the argument. A worker that is through with a queue at
the current epoch leaves there only what producers have still to announce: the
ones that have bumped the epoch have made its ticket stale. And while somebody
sleeps, there are no more tasks than searchers and announcements together. A
wake may land on a worker that had found every queue empty since the bump. The
first invariant covers that case: nothing but unannounced tasks is left.

## Main definitions

* `Worker.willSearch`: Awake and idle, with a queue still ahead.
* `ParkInv`: The invariant.

## Theorems

* `sum_announcing_le`: Everything that is announced is announced by a call under way.
* `announcing_set`, `inFlight_set`, `announcing_same`, `inFlight_same`: What a producer's step does
  to the sums over producers.
* `behind_next`: Who is through with a queue stays so, or the queue is announced.
* `searchers_except`: If all but `w` stay awake, at most one searcher is lost.
* `searchers_mono`: While nobody falls asleep the searchers get no fewer.
* `all_behind`: If a worker is through with every queue, only unannounced tasks are left.
* `ParkInv.still_covered`: A step that leaves tasks and producers alone, and everybody awake.
* `covered_work`, `covered_next`: Tasks are covered by searchers and producers, after every action.
* `searchers_wake`: Whoever is woken with a queue ahead is one searcher more.
* `covered_wakeOne`: A wake trades a `new_work` call for a searcher.
* `parkInv_next`: Every action keeps the invariant.
* `parkInv_reachable`: The invariant holds in every state.
* `no_wakeup_lost`: There are never more tasks than searchers while somebody sleeps and no
  `new_work` is under way.
* `spun_succ`, `assumed_of_fresh`, `spun_reachable`, `assumed_of_go`, `no_wakeup_lost_parked`: A
  worker that spins, yields and goes to sleep.
-/

namespace Cmpth

namespace Idle

variable {W P : Type*}

/-- Awake and idle, with a queue still ahead. -/
def Worker.willSearch (epoch : Nat) (wk : Worker W) : Prop :=
  wk.pc.awake = true ∧ ∃ q, ¬ wk.seen epoch q

instance [Fintype W] [DecidableEq W] (epoch : Nat) (wk : Worker W) :
    Decidable (wk.willSearch epoch) :=
  inferInstanceAs (Decidable (_ ∧ _))

section

variable [DecidableEq W] [DecidableEq P] [Fintype W] [Fintype P]

/-- How many producers have pushed to the queue and not yet bumped the
    epoch. -/
def State.announcing (s : State W P) (q : Queue W) : Nat :=
  ∑ p, if (s.producer p).announces = some q then 1 else 0

/-- How many `new_work` calls are under way. -/
def State.inFlight (s : State W P) : Nat :=
  ∑ p, if s.producer p = .idle then 0 else 1

/-- How many workers are awake and idle and will still search. -/
def State.searchers (s : State W P) : Nat :=
  ∑ w, if (s.worker w).willSearch s.epoch then 1 else 0

/-- The invariant of `ParkIdle`. -/
structure ParkInv (c : Config) (s : State W P) : Prop where
  counts : Counts c s
  /-- Behind a registered worker only unannounced tasks arrive. -/
  behind : ∀ w q, (s.worker w).seen s.epoch q → s.queue q ≤ s.announcing q
  covered : s.finished = false → (∃ w, (s.worker w).pc.isBlocked = true) →
    ∑ q, s.queue q ≤ s.searchers + s.inFlight

variable {c : Config} {s s' : State W P}

omit [DecidableEq P] in
/-- Everything that is announced is announced by a call under way. -/
theorem sum_announcing_le (s : State W P) : ∑ q, s.announcing q ≤ s.inFlight := by
  unfold State.announcing State.inFlight
  rw [Finset.sum_comm]
  refine Finset.sum_le_sum fun p _ => ?_
  cases hp : (s.producer p).announces with
  | none => simp
  | some q =>
      have hne : s.producer p ≠ .idle := by
        intro hidle
        rw [hidle] at hp
        cases hp
      simp [hne]

omit [Fintype W] in
theorem announcing_set (s : State W P) (p : P) (pc : ProducerPc W) (q : Queue W) :
    (s.setProducer p pc).announcing q + (if (s.producer p).announces = some q then 1 else 0) =
      s.announcing q + (if pc.announces = some q then 1 else 0) :=
  sum_update s.producer (fun pc => if pc.announces = some q then 1 else 0) p pc

omit [Fintype W] in
theorem inFlight_set (s : State W P) (p : P) (pc : ProducerPc W) :
    (s.setProducer p pc).inFlight + (if s.producer p = .idle then 0 else 1) =
      s.inFlight + (if pc = .idle then 0 else 1) :=
  sum_update s.producer (fun pc => if pc = .idle then 0 else 1) p pc

omit [Fintype W] in
theorem announcing_same {p : P} {pc : ProducerPc W}
    (h : pc.announces = (s.producer p).announces) (q : Queue W) :
    (s.setProducer p pc).announcing q = s.announcing q := by
  have hset := announcing_set s p pc q
  rw [h] at hset
  omega

omit [Fintype W] in
theorem inFlight_same {p : P} {pc : ProducerPc W} (hpc : pc ≠ .idle)
    (h : s.producer p ≠ .idle) : (s.setProducer p pc).inFlight = s.inFlight := by
  have hset := inFlight_set s p pc
  rw [if_neg h, if_neg hpc] at hset
  omega

theorem behind_next (h : ParkInv c s) (hc : c.policy = .park) {a : Action W P} (hg : guard s a)
    (hl : LooksEverywhere s a) {w : W} {q : Queue W}
    (hs : ((next c s a).worker w).seen (next c s a).epoch q) :
    (next c s a).queue q ≤ (next c s a).announcing q := by
  -- Who has seen the epoch of now looked at the queue after it: a look is what empties it.
  cases a with
  | work x st =>
      have hle : (next c s (.work x st)).queue q ≤ s.queue q := queue_apply_le s x _ q
      refine hle.trans ?_
      by_cases hw : w = x
      · subst hw
        have hseen : ((s.worker w).step c s.view st).worker.seen
            (s.epoch + ((s.worker w).step c s.view st).epoch) q := by
          simpa only [next, State.apply, Function.update_self] using hs
        rcases seen_step (h.counts.ok w) hg (hl q) hseen with ⟨_, hbefore | hempty⟩
        · exact h.behind w q (seen_before h.counts hbefore)
        · rw [hempty]
          exact Nat.zero_le _
      · have hseen : (s.worker w).seen (s.epoch + ((s.worker x).step c s.view st).epoch) q := by
          simpa only [next, State.apply, Function.update_of_ne hw] using hs
        exact h.behind w q (seen_before h.counts hseen)
  | notify x target =>
      by_cases hw : w = x
      · subst hw
        simp only [next, Function.update_self] at hs
        exact nomatch hs.2
      · simp only [next, Function.update_of_ne hw] at hs
        have hbehind := h.behind w q (seen_wake (by simpa using hs))
        simpa [next, State.announcing] using hbehind
  | publish p q' =>
      have hset := announcing_set s p (.loadSleepers q') q
      rw [show s.producer p = .idle from hg.1,
        if_neg (show (ProducerPc.idle : ProducerPc W).announces ≠ some q by nofun)] at hset
      have hbehind := h.behind w q hs
      simp only [next, hc]
      change Function.update s.queue q' (s.queue q' + 1) q ≤
        (s.setProducer p (.loadSleepers q')).announcing q
      -- The item that is put has a producer that announces it.
      by_cases hq : q = q'
      · subst hq
        rw [if_pos (show (ProducerPc.loadSleepers q).announces = some q from rfl)] at hset
        rw [Function.update_self]
        omega
      · rw [Function.update_of_ne hq]
        omega
  | loadSearching p q' =>
      have hp : s.producer p = .loadSearching q' := hg
      have hbehind := h.behind w q hs
      simp only [next, h.counts.searching_park hc, if_true]
      rwa [announcing_same (by rw [hp]; rfl)]
  | loadSleepers p q' =>
      have hp : s.producer p = .loadSleepers q' := hg
      have hbehind := h.behind w q hs
      -- Whoever is registered is counted, so that the producer goes on to wake.
      have hne : s.sleepers ≠ 0 := fun h0 => by
        have hticket := h.counts.no_ticket h0 w
        rw [show (s.worker w).ticket = _ from hs.1] at hticket
        cases hticket
      -- It still announces, with the wake instead of the load.
      simp only [next, hne, if_false]
      rwa [announcing_same (by rw [hp]; rfl)]
  | bump p q' | closeBump => exact absurd hs (not_seen_succ h.counts w)
  | pass p q' =>
      have hp : s.producer p = .waking q' .pass := hg
      have hbehind := h.behind w q hs
      simp only [next]
      rwa [announcing_same (by rw [hp]; rfl)]
  | wakeOne p q' target =>
      have hp : (s.wake c target).producer p = .waking q' .notify := by
        rw [producer_wake]
        exact hg.1
      have hbehind := h.behind w q
        (seen_wake (by simpa [next, State.setProducer] using hs))
      simp only [next]
      rw [announcing_same (by rw [hp]; rfl)]
      simpa [State.announcing, State.setProducer] using hbehind
  | wakeAll =>
      refine h.behind w q ?_
      by_cases hb : (s.worker w).pc.isBlocked = true
      · exact ⟨(wake_ticket _).symm.trans hs.1, looked_of_blocked hb q⟩
      · simp only [next, wake_of_awake (by simpa using hb)] at hs
        exact hs
  | finish | closePass => exact h.behind w q hs

omit [DecidableEq P] [Fintype P] in
/-- If all but `w` stay awake, at most one searcher is lost. -/
theorem searchers_except {w : W} {d : Nat}
    (ha : ∀ x, x ≠ w → (s.worker x).pc.awake = true → (s'.worker x).willSearch s'.epoch)
    (hw : (s.worker w).pc.awake = true → (s'.worker w).willSearch s'.epoch ∨ 1 ≤ d) :
    s.searchers ≤ s'.searchers + d := by
  refine sum_le_sum_except w (fun x hx => ?_) ?_
  · by_cases hs : (s.worker x).willSearch s.epoch
    · rw [if_pos hs, if_pos (ha x hx hs.1)]
    · rw [if_neg hs]
      exact Nat.zero_le _
  · by_cases hs : (s.worker w).willSearch s.epoch
    · rw [if_pos hs]
      rcases hw hs.1 with hw | hd
      · rw [if_pos hw]
        omega
      · omega
    · rw [if_neg hs]
      exact Nat.zero_le _

omit [DecidableEq P] [Fintype P] in
theorem searchers_mono
    (ha : ∀ x, (s.worker x).pc.awake = true → (s'.worker x).willSearch s'.epoch) :
    s.searchers ≤ s'.searchers := by
  refine Finset.sum_le_sum fun x _ => ?_
  by_cases hs : (s.worker x).willSearch s.epoch
  · rw [if_pos hs, if_pos (ha x hs.1)]
  · rw [if_neg hs]
    exact Nat.zero_le _

omit [DecidableEq P] in
/-- If a worker is through with every queue, only unannounced tasks are left. -/
theorem all_behind (h : ∀ q, s.queue q ≤ s.announcing q) : ∑ q, s.queue q ≤ s.inFlight :=
  (Finset.sum_le_sum fun q _ => h q).trans (sum_announcing_le s)

omit [DecidableEq P] in
/-- A step that leaves tasks and producers alone, and everybody awake. -/
theorem ParkInv.still_covered (h : ParkInv c s) (hf : s.finished = false)
    (hb : ∃ w, (s.worker w).pc.isBlocked = true) (hq : s'.queue = s.queue)
    (hn : s'.inFlight = s.inFlight)
    (ha : ∀ x, (s.worker x).pc.awake = true → (s'.worker x).willSearch s'.epoch) :
    ∑ q, s'.queue q ≤ s'.searchers + s'.inFlight := by
  have hcovered := h.covered hf hb
  have hsearchers := searchers_mono ha
  rw [hq, hn]
  omega

theorem covered_work (h : ParkInv c s) (hw : NoWrap s) {w : W} {st : Step W}
    (hg : guard (P := P) s (.work w st)) (hf : s.finished = false)
    (hb : ∃ x, ((next c s (.work w st)).worker x).pc.isBlocked = true)
    (hahead : ∀ x, ∃ q,
      ¬ ((next c s (.work w st)).worker x).seen (next c s (.work w st)).epoch q) :
    ∑ q, (next c s (.work w st)).queue q ≤
      (next c s (.work w st)).searchers + (next c s (.work w st)).inFlight := by
  set e := (s.worker w).step c s.view st with he
  have hself : (next c s (.work w st)).worker w = e.worker := Function.update_self ..
  have hother : ∀ x, x ≠ w → (next c s (.work w st)).worker x = s.worker x :=
    fun x hx => Function.update_of_ne hx ..
  have hready : (s.worker w).ready w s.queue st = true := hg
  -- Nobody falls asleep in this step: whoever does is through with every queue.
  have hawake : e.worker.pc.isBlocked ≠ true := fun hblocked => by
    rcases hahead w with ⟨q, hq⟩
    rw [hself] at hq
    exact hq (blocked_step (fun seen ht => ⟨h.counts.ticket w seen ht, hw w seen ht⟩) hready
      hblocked q)
  have hbs : ∃ x, (s.worker x).pc.isBlocked = true := by
    rcases hb with ⟨x, hx⟩
    by_cases hxw : x = w
    · rw [hxw, hself] at hx
      exact absurd hx hawake
    · rw [hother x hxw] at hx
      exact ⟨x, hx⟩
  have hcovered := h.covered hf hbs
  have hflight : (next c s (.work w st)).inFlight = s.inFlight := rfl
  have hstay : ∀ x, x ≠ w → (s.worker x).pc.awake = true →
      ((next c s (.work w st)).worker x).willSearch (next c s (.work w st)).epoch :=
    fun x hx ha => ⟨by rwa [hother x hx], hahead x⟩
  have hstep := awake_step (c := c) (v := s.view) hf hready
  rw [← he] at hstep
  cases ht : e.taken with
  | none =>
      have hqueue : (next c s (.work w st)).queue = s.queue := by
        simp only [next, State.apply, ← he, ht]
      have hsearchers : s.searchers ≤ (next c s (.work w st)).searchers + 0 := by
        refine searchers_except hstay fun ha => .inl ⟨?_, hahead w⟩
        rw [hself]
        rcases hstep ha with h | h | ⟨_, h⟩
        · exact h
        · exact absurd h hawake
        · exact absurd ht h
      rw [hqueue, hflight]
      omega
  | some q =>
      -- One task and at most one searcher are gone.
      have hpos : 0 < s.queue q := taken_step hready (he ▸ ht)
      have hqueue := sum_update s.queue id q (s.queue q - 1)
      have hnext : (next c s (.work w st)).queue = Function.update s.queue q (s.queue q - 1) := by
        simp only [next, State.apply, ← he, ht]
      rw [← hnext] at hqueue
      simp only [id_eq] at hqueue
      have hsearchers := searchers_except hstay (d := 1) fun _ => .inr le_rfl
      rw [hflight]
      omega

omit [DecidableEq P] [Fintype P] in
/-- Whoever is woken with a queue ahead is one searcher more. -/
theorem searchers_wake {t : W} (hb : (s.worker t).pc.isBlocked = true)
    (hahead : ∃ q, ¬ ((s.worker t).wake c).seen s.epoch q) :
    (s.wake c (some t)).searchers = s.searchers + 1 := by
  have hsum := sum_update s.worker (fun wk => if wk.willSearch s.epoch then 1 else 0) t
    ((s.worker t).wake c)
  have hasleep : ¬ (s.worker t).willSearch s.epoch := fun hs => by
    rw [not_blocked_of_awake hs.1] at hb
    cases hb
  rw [if_neg hasleep, if_pos ⟨wake_awake hb, hahead⟩] at hsum
  exact hsum

/-- A wake trades a `new_work` call for a searcher. -/
theorem covered_wakeOne (h : ParkInv c s) {p : P} {q : Queue W} {target : Option W}
    (hg : guard s (.wakeOne p q target)) (hf : (next c s (.wakeOne p q target)).finished = false)
    (hb : ∃ w, ((next c s (.wakeOne p q target)).worker w).pc.isBlocked = true)
    (hahead : ∀ w, ∃ q',
      ¬ ((next c s (.wakeOne p q target)).worker w).seen
        (next c s (.wakeOne p q target)).epoch q') :
    ∑ x, (next c s (.wakeOne p q target)).queue x ≤
      (next c s (.wakeOne p q target)).searchers + (next c s (.wakeOne p q target)).inFlight := by
  have hp : s.producer p = .waking q .notify := hg.1
  -- It finds nobody only when nobody is blocked; whoever it wakes is a searcher from here on.
  cases target with
  | none =>
      have hnobody : ∀ x, (s.worker x).pc.isBlocked = false := hg.2
      rcases hb with ⟨x, hx⟩
      rw [show (next c s (.wakeOne p q none)).worker x = s.worker x from rfl, hnobody x] at hx
      cases hx
  | some t =>
      have ht : (s.worker t).pc.isBlocked = true := hg.2
      have hflight := inFlight_set (s.wake c (some t)) p .idle
      rw [if_pos rfl, producer_wake, if_neg (by rw [hp]; nofun)] at hflight
      have hsearchers := searchers_wake (c := c) ht (by
        rcases hahead t with ⟨q', hq⟩
        refine ⟨q', ?_⟩
        rwa [show (next c s (.wakeOne p q (some t))).worker t = (s.worker t).wake c from
          Function.update_self ..] at hq)
      have hcovered := h.covered hf ⟨t, ht⟩
      change ∑ x, s.queue x ≤ (s.wake c (some t)).searchers +
        ((s.wake c (some t)).setProducer p .idle).inFlight
      have hsame : (s.wake c (some t)).inFlight = s.inFlight := rfl
      omega

theorem covered_next (h : ParkInv c s) (hc : c.policy = .park) (hw : NoWrap s)
    {a : Action W P} (hg : guard s a)
    (hbehind : ∀ w q, ((next c s a).worker w).seen (next c s a).epoch q →
      (next c s a).queue q ≤ (next c s a).announcing q)
    (hf : (next c s a).finished = false)
    (hb : ∃ w, ((next c s a).worker w).pc.isBlocked = true) :
    ∑ q, (next c s a).queue q ≤ (next c s a).searchers + (next c s a).inFlight := by
  -- If somebody is through with every queue, only unannounced tasks are left.
  by_cases hall : ∃ w, ∀ q, ((next c s a).worker w).seen (next c s a).epoch q
  · rcases hall with ⟨w, hw⟩
    exact (all_behind fun q => hbehind w q (hw q)).trans (Nat.le_add_left _ _)
  have hahead : ∀ w, ∃ q, ¬ ((next c s a).worker w).seen (next c s a).epoch q := by
    simpa only [not_exists, not_forall] using hall
  cases a with
  | work w st => exact covered_work h hw hg hf hb hahead
  | notify w target =>
      have hnot := pc_of_notifies hg.1
      have hother : ∀ x, x ≠ w →
          (next c s (.notify w target)).worker x = (s.wake c target).worker x :=
        fun x hx => Function.update_of_ne hx ..
      refine h.still_covered (by simpa [next] using hf) ?_ (by simp [next]) ?_ fun x ha => ?_
      · rcases hb with ⟨x, hx⟩
        by_cases hxw : x = w
        · subst hxw
          simp only [next, Function.update_self] at hx
          cases hx
        · rw [hother x hxw] at hx
          exact ⟨x, blocked_of_wake hx⟩
      · simp [next, State.inFlight]
      · have hxw : x ≠ w := by
          rintro rfl
          rw [hnot] at ha
          cases ha
        refine ⟨?_, hahead x⟩
        rw [hother x hxw]
        exact awake_of_wake ha
  | publish p q =>
      -- One task and one call more.
      have hqueue := sum_update s.queue id q (s.queue q + 1)
      have hflight := inFlight_set s p (.loadSleepers q)
      rw [if_pos hg.1, if_neg nofun] at hflight
      have hcovered := h.covered hf hb
      have hsearchers : s.searchers ≤ (next c s (.publish p q)).searchers :=
        searchers_mono fun x ha => ⟨ha, hahead x⟩
      have hnext : (next c s (.publish p q)).inFlight =
          (s.setProducer p (.loadSleepers q)).inFlight := by
        simp only [next, hc]
        rfl
      simp only [id_eq] at hqueue
      change ∑ x, Function.update s.queue q (s.queue q + 1) x ≤ _
      omega
  | loadSearching p q =>
      have hp : s.producer p = .loadSearching q := hg
      simp only [next, h.counts.searching_park hc, if_true] at hb hahead hf ⊢
      exact h.still_covered hf hb rfl (inFlight_same nofun (by rw [hp]; nofun))
        fun x ha => ⟨ha, hahead x⟩
  | loadSleepers p q =>
      have hp : s.producer p = .loadSleepers q := hg
      -- Whoever is blocked is counted, so that the producer goes on to wake.
      have hne : s.sleepers ≠ 0 := fun h0 => by
        rcases hb with ⟨x, hx⟩
        exact ticket_of_blocked (h.counts.ok x) hx (h.counts.no_ticket h0 x)
      simp only [next, hne, if_false] at hb hahead hf ⊢
      exact h.still_covered hf hb rfl (inFlight_same nofun (by rw [hp]; nofun))
        fun x ha => ⟨ha, hahead x⟩
  | bump p q =>
      have hp : s.producer p = .waking q .bump := hg
      exact h.still_covered hf hb rfl (inFlight_same nofun (by rw [hp]; nofun))
        fun x ha => ⟨ha, hahead x⟩
  | pass p q =>
      have hp : s.producer p = .waking q .pass := hg
      exact h.still_covered hf hb rfl (inFlight_same nofun (by rw [hp]; nofun))
        fun x ha => ⟨ha, hahead x⟩
  | wakeOne p q target => exact covered_wakeOne h hg hf hb hahead
  | closeBump | closePass =>
      exact h.still_covered hf hb rfl rfl fun x ha => ⟨ha, hahead x⟩
  | finish => cases hf
  | wakeAll =>
      rcases hb with ⟨x, hx⟩
      by_cases hbx : (s.worker x).pc.isBlocked = true
      · have hawake := not_blocked_of_awake (wake_awake (c := c) hbx)
        exact absurd hx (by simp only [next]; rw [hawake]; nofun)
      · simp only [next, wake_of_awake (by simpa using hbx)] at hx
        exact absurd hx hbx

/-- What is assumed of every step: the search of a registered worker looks at
    every queue, and the epoch does not come round while a ticket is out. -/
def ParkAssumed (s : State W P) (a : Action W P) : Prop :=
  LooksEverywhere s a ∧ NoWrap s

theorem parkInv_next (h : ParkInv c s) (hc : c.policy = .park) {a : Action W P}
    (hg : guard s a) (ha : ParkAssumed s a) : ParkInv c (next c s a) where
  counts := counts_step h.counts a hg
  behind _ _ hs := behind_next h hc hg ha.1 hs
  covered := covered_next h hc ha.2 hg fun _ _ hs => behind_next h hc hg ha.1 hs

theorem parkInv_reachable (hc : c.policy = .park) (h : (system c).ReachableIf ParkAssumed s) :
    ParkInv c s := by
  refine h.induct (fun s hi => ?_) fun s a h hg ha => parkInv_next h hc hg ha
  have hw : ∀ w, s.worker w = .fresh := hi.1
  refine ⟨counts_reachable (.init s hi), fun w q hs => ?_, fun _ hb => ?_⟩
  · rw [hw w] at hs
    exact nomatch hs.1
  · rcases hb with ⟨w, hb⟩
    rw [hw w] at hb
    cases hb

/-- `ParkIdle` loses no wakeup. While no `new_work` call is under way and some
    worker is blocked there are no more queued tasks than awake idle workers
    that will still search, so that not all workers are blocked while a task is
    queued. The sleepers are never fewer than none, and where no operation of
    the policy is in flight they are the tickets. -/
theorem no_wakeup_lost (hc : c.policy = .park) (h : (system c).ReachableIf ParkAssumed s) :
    (s.finished = false → (∀ p, s.producer p = .idle) →
      (∃ w, (s.worker w).pc.isBlocked = true) →
      ∑ q, s.queue q ≤ (Finset.univ.filter fun w => (s.worker w).willSearch s.epoch).card) ∧
    (s.finished = false → (∀ p, s.producer p = .idle) → Nonempty W →
      (∀ w, (s.worker w).pc.isBlocked = true) → ∀ q, s.queue q = 0) ∧
    (Quiet s →
      s.sleepers = (Finset.univ.filter fun w => (s.worker w).ticket.isSome).card) ∧
    0 ≤ s.sleepers := by
  have hinv := parkInv_reachable hc h
  -- With every producer idle nobody announces, and nothing is in flight.
  have hcovered : s.finished = false → (∀ p, s.producer p = .idle) →
      (∃ w, (s.worker w).pc.isBlocked = true) → ∑ q, s.queue q ≤ s.searchers := by
    intro hf hidle hb
    have hflight : s.inFlight = 0 := Finset.sum_eq_zero fun p _ => if_pos (hidle p)
    have hle := hinv.covered hf hb
    omega
  refine ⟨fun hf hidle hb => ?_, fun hf hidle hne hall q => ?_,
    hinv.counts.sleepers_quiet, hinv.counts.sleepers_nonneg⟩
  · rw [Finset.card_filter]
    exact hcovered hf hidle hb
  · rcases hne with ⟨w⟩
    have hnone : s.searchers = 0 := Finset.sum_eq_zero fun x _ => if_neg fun hs => by
      have hx := hall x
      rw [not_blocked_of_awake hs.1] at hx
      cases hx
    have hle := hcovered hf hidle ⟨w, hall w⟩
    have hq := Finset.single_le_sum (f := s.queue) (fun _ _ => Nat.zero_le _) (Finset.mem_univ q)
    omega

end

/-- A pool of one worker, which parks on a futex. -/
def futexPark : Config where
  policy := .park
  wait := .futex
  cap _ _ _ := 0

/-- The worker after `n` rounds that found nothing. -/
def spun (n : Nat) : State Unit Unit where
  worker _ := { Worker.fresh with rounds := n }
  producer _ := .idle
  queue _ := 0
  sleepers := 0
  searching := 0
  epoch := 0
  finished := false
  closing := .running

/-- A round of the loop that finds nothing. -/
def fruitlessRound : List (Action Unit Unit) :=
  [.work () (.go false false), .work () .giveUp, .work () (.go false false)]

/-- The worker registers, looks at both queues and sleeps. -/
def parkRun : List (Action Unit Unit) :=
  fruitlessRound ++
    [Action.work () (.go false false), .work () (.go false false),
      .work () (.visit (some ()) .empty), .work () (.visit none .empty), .work () .giveUp,
      .work () (.go false false),
      .work () (.go false false), .work () (.go false false), .work () (.go false false)]

theorem spun_succ (n : Nat) (h : n < 128) :
    (system futexPark).run (spun n) fruitlessRound = spun (n + 1) := by
  have hle : n + 1 ≤ spinRounds + yieldRounds := h
  have hupdate : ∀ (f : Unit → Worker Unit) wk, Function.update f () wk = fun _ => wk :=
    fun _ _ => funext fun _ => rfl
  simp [System.run, fruitlessRound, system, next, State.apply, State.view, Worker.step, Worker.go,
    Worker.moveTo, Worker.fresh, spun, parkNoWork, futexPark, hupdate, hle]

theorem assumed_of_fresh {s : State Unit Unit} {a : Action Unit Unit}
    (ht : (s.worker ()).ticket = none) : ParkAssumed s a := by
  refine ⟨?_, fun w seen hseen => ?_⟩
  · cases a <;> first | exact fun _ _ hne => absurd ht hne | trivial
  · rw [show w = () from rfl, ht] at hseen
    cases hseen

theorem spun_reachable (n : Nat) (h : n ≤ 128) :
    (system futexPark).ReachableIf ParkAssumed (spun n) := by
  induction n with
  | zero => exact .init _ ⟨fun _ => rfl, fun _ => rfl, rfl, rfl, rfl, rfl, rfl⟩
  | succ n ih =>
      rw [← spun_succ n h]
      refine (system futexPark).reachableIf_run _ _ (ih (by omega)) ⟨rfl, rfl, rfl, trivial⟩ ?_
      exact ⟨assumed_of_fresh rfl, assumed_of_fresh rfl, assumed_of_fresh rfl, trivial⟩

theorem assumed_of_go {s : State Unit Unit} {st : Step Unit} (hst : st ≠ .giveUp)
    (he : s.epoch < 2 ^ 32) : ParkAssumed s (.work () st) :=
  ⟨fun _ h => absurd h hst, fun _ _ _ => lt_of_lt_of_le he (Nat.le_add_left _ _)⟩

theorem no_wakeup_lost_parked :
    (∃ w, (((system futexPark).run (spun 128) parkRun).worker w).pc.isBlocked = true) ∧
    ∀ q, ((system futexPark).run (spun 128) parkRun).queue q = 0 := by
  have hlegal : (system futexPark).Legal (spun 128) parkRun := by decide
  have hlook : ∀ q : Queue Unit, Function.update
      (Function.update (fun _ => false) (some ()) true) none true q = true := by decide
  have hgo : ∀ {s : State Unit Unit}, s.epoch < 2 ^ 32 →
      ParkAssumed s (.work () (.go false false)) := assumed_of_go nofun
  have halong : (system futexPark).Along ParkAssumed (spun 128) parkRun :=
    ⟨assumed_of_fresh rfl, assumed_of_fresh rfl, assumed_of_fresh rfl, assumed_of_fresh rfl,
      hgo (by decide), assumed_of_go nofun (by decide), assumed_of_go nofun (by decide),
      ⟨fun q _ _ passed hp => (Pc.searching.inj hp).1 ▸ hlook q,
        fun _ _ _ => lt_of_lt_of_le (by decide) (Nat.le_add_left _ _)⟩,
      hgo (by decide), hgo (by decide), hgo (by decide), hgo (by decide), trivial⟩
  have hr := (system futexPark).reachableIf_run _ _ (spun_reachable 128 le_rfl) hlegal halong
  refine ⟨⟨(), by decide⟩, ?_⟩
  exact (no_wakeup_lost rfl hr).2.1 (by decide) (by decide) ⟨()⟩ (by decide)

end Idle

end Cmpth

import Cmpth.Waker.Nested

/-!
# The Two Pollers

`ResumablePoller` has a word for each call, which is idle exactly when the call
is not in progress. So it never loses a word, and a waker that outlives its call
finds nothing to claim.

`UltPoller` has one word for all calls of the ULT. An inner call stores to it
when it begins and when it ends, and what a wake had left there for the outer
call is gone. The outer call then parks, and if no other wake comes it stays
parked.

## Main definitions

* `Slots`: The word of a call is idle exactly when it is not in progress.
* `Undisturbed`: The steps of a ULT with `UltPoller` that lose no wake.
* `Resumed`: What the wakers of a call do to it.

## Theorems

* `slots_init`, `slots_decidePark`, `slots_wakeExchange`, `slots_reachable`: The words of the calls,
  in every state.
* `word_setWord_of_ne`: The word of another call is another.
* `slots_setWord`: The word of a call in progress changes.
* `slots_congr`: A step that leaves the words and the calls alone.
* `slots_enter`: A call begins.
* `slots_leave`: A call ends.
* `slots_next`: Every step keeps the words of the calls that are over idle, and only those.
* `kept_of_injective`: With a slot for each call no step loses a word.
* `home_injective`: Every call has a word of its own.
* `owner_ultPoller`: With `UltPoller` the innermost call has the word.
* `kept_of_undisturbed`, `inv_undisturbed`: With `UltPoller`, undisturbed steps lose no word.
* `lost_of_disturbed`: After a step that disturbs a wake, the ULT can park and lose it.
* `block_on_notLost`: Which runs lose no wake, with either poller.
* `reachable_wokenInside`, `block_on_notLost_nested`, `ultPoller_lost`,
  `resumable_resumed_wokenAfter`: Calls inside one another, and a wake that is lost.
* `resumable_resumed`: With `ResumablePoller` the ULT is pushed once for each time it parks, by the
  waker that has claimed it.
-/

namespace Cmpth

namespace Waker

namespace BlockOn

variable {C D K Q : Type*} [DecidableEq C] [DecidableEq D] [DecidableEq K] [DecidableEq Q]
variable {P : Poller C D} {s : State C D K Q} {a : Action C K Q}

/-- The word of a call is idle exactly when the call is not in progress. -/
structure Slots (P : Poller C D) (s : State C D K Q) : Prop where
  busy : ∀ c ∈ s.stack, decode (s.word (P.home c)) ≠ .idle
  ended : ∀ c, c ∉ s.stack → s.started c = true → decode (s.word (P.home c)) = .idle

omit [DecidableEq C] [DecidableEq D] [DecidableEq K] [DecidableEq Q] in
theorem slots_init (hi : init s) : Slots P s := by
  rcases hi with ⟨hstack, hstarted, -⟩
  constructor
  · rw [hstack]
    nofun
  · intro c _ hc
    rw [hstarted c] at hc
    cases hc

omit [DecidableEq C] [DecidableEq K] [DecidableEq Q] in
/-- The word of another call is another. -/
theorem word_setWord_of_ne (hinj : Function.Injective P.home) {c c' : C} {w : Word}
    (hne : c' ≠ c) : (s.setWord (P.home c) w).word (P.home c') = s.word (P.home c') :=
  Function.update_of_ne (hinj.ne hne) ..

omit [DecidableEq C] [DecidableEq K] [DecidableEq Q] in
/-- The word of a call in progress changes. -/
theorem slots_setWord (hinj : Function.Injective P.home) (h : Slots P s) {c : C} {w : Word}
    (hc : decode w = .idle ↔ decode (s.word (P.home c)) = .idle) :
    Slots P (s.setWord (P.home c) w) := by
  have hword : ∀ c', decode ((s.setWord (P.home c) w).word (P.home c')) = .idle ↔
      decode (s.word (P.home c')) = .idle := by
    intro c'
    by_cases hne : c' = c
    · subst hne
      rw [show (s.setWord (P.home c') w).word (P.home c') = w from Function.update_self ..]
      exact hc
    · rw [word_setWord_of_ne hinj hne]
  constructor
  · exact fun c' hc' => (hword c').not.mpr (h.busy c' hc')
  · exact fun c' hc' hs => (hword c').mpr (h.ended c' hc' hs)

omit [DecidableEq C] [DecidableEq D] [DecidableEq K] [DecidableEq Q] in
/-- A step that leaves the words and the calls alone. -/
theorem slots_congr {s' : State C D K Q} (h : Slots P s) (hword : s'.word = s.word)
    (hstack : s'.stack = s.stack) (hstarted : s'.started = s.started) : Slots P s' := by
  rcases h with ⟨hbusy, hover⟩
  constructor
  · rw [hword, hstack]
    exact hbusy
  · rw [hword, hstack, hstarted]
    exact hover

omit [DecidableEq K] [DecidableEq Q] in
/-- A call begins. -/
theorem slots_enter (hinj : Function.Injective P.home) (h : Slots P s) (c : C) :
    Slots P
      { s.setWord (P.home c) polling with
        stack := c :: s.stack
        started := Function.update s.started c true
        ult := .ready
        woken := Function.update s.woken c false } := by
  have hpoll : decode polling = .polling := by decide
  constructor
  · intro c' hc'
    -- The word of the call is set to polling; the words of the others are their own.
    by_cases hne : c' = c
    · rw [hne, show (s.setWord (P.home c) polling).word (P.home c) = polling from
        Function.update_self .., hpoll]
      nofun
    · rw [word_setWord_of_ne hinj hne]
      exact h.busy c' ((List.mem_cons.mp hc').resolve_left hne)
  · intro c' hc' hs
    have hne : c' ≠ c := fun he => hc' (he ▸ List.mem_cons_self)
    rw [word_setWord_of_ne hinj hne]
    exact h.ended c' (fun hm => hc' (List.mem_cons_of_mem c hm))
      ((Function.update_of_ne hne ..).symm.trans hs)

omit [DecidableEq C] [DecidableEq K] [DecidableEq Q] in
/-- A call ends. -/
theorem slots_leave (hinj : Function.Injective P.home) (h : Slots P s) {c : C} {l : List C}
    (hstack : s.stack = c :: l) (hc : c ∉ l) :
    Slots P { s.setWord (P.home c) idle with stack := l, ult := .polling } := by
  have hidle : decode idle = .idle := by decide
  constructor
  · intro c' hc'
    have hne : c' ≠ c := fun he => hc (he ▸ hc')
    rw [word_setWord_of_ne hinj hne]
    exact h.busy c' (hstack ▸ List.mem_cons_of_mem c hc')
  · -- The call that ends has idled its word, and the others that are over had.
    intro c' hc' hs
    by_cases hne : c' = c
    · rw [hne, show (s.setWord (P.home c) idle).word (P.home c) = idle from
        Function.update_self .., hidle]
    · rw [word_setWord_of_ne hinj hne]
      refine h.ended c' (fun hm => ?_) hs
      rw [hstack] at hm
      exact hc' ((List.mem_cons.mp hm).resolve_left hne)

omit [DecidableEq C] [DecidableEq K] [DecidableEq Q] in
theorem slots_decidePark (hinj : Function.Injective P.home) (h : Slots P s) {c : C} {refs : Word}
    (hc : c ∈ s.stack) : Slots P (s.decidePark (P.home c) refs) := by
  have hbusy : decode (s.word (P.home c)) ≠ .idle := h.busy c hc
  have hnew : decode (parkTry refs).1 ≠ .idle := by
    rcases decode_parkTry refs with ⟨-, hd, -⟩ | ⟨-, hd, -⟩
    all_goals
      rw [hd]
      nofun
  have hset : Slots P (s.setWord (P.home c) (parkTry refs).1) :=
    slots_setWord hinj h ⟨fun hd => absurd hd hnew, fun hd => absurd hd hbusy⟩
  unfold State.decidePark
  split_ifs
  · exact slots_congr hset rfl rfl rfl
  · exact slots_congr hset rfl rfl rfl
  · exact slots_congr h rfl rfl rfl

omit [DecidableEq Q] in
theorem slots_wakeExchange (hinj : Function.Injective P.home) (h : Slots P s) {k : K} {c : C}
    {refs : Word} : Slots P (s.wakeExchange P k c refs) := by
  unfold State.wakeExchange
  by_cases heq : s.word (P.home c) = refs
  · rw [if_pos heq]
    rcases decode_wakeTry refs with ⟨hold, new, hout, hnew⟩ | ⟨hold, new, hout, hnew⟩ | ⟨-, hout⟩
    · rw [hout]
      refine slots_congr (slots_setWord hinj h (w := new) (c := c) ?_) rfl rfl rfl
      rw [heq, hold, hnew]
      simp only [reduceCtorEq]
    · rw [hout]
      refine slots_congr (slots_setWord hinj h (w := new) (c := c) ?_) rfl rfl rfl
      rw [heq, hold, hnew]
      simp only [reduceCtorEq]
    · rw [hout]
      exact h
  · rw [if_neg heq]
    exact slots_congr h rfl rfl rfl

/-- Every step keeps the words of the calls that are over idle, and only
    those. -/
theorem slots_next (hinj : Function.Injective P.home) {p : Spot K Q} (hinv : Inv P s p)
    (h : Slots P s) (hg : guard s a) : Slots P (next P s a) := by
  have hne : s.ult ≠ .polling → ∃ c l, s.stack = c :: l := fun hu =>
    List.exists_cons_of_ne_nil (hinv.stack hu)
  -- Only the ULT's entering and leaving make a word the idle one of a call.
  cases a with
  | enter c => exact slots_enter hinj h c
  | leave =>
      have hult : s.ult = .leaving := hg
      rcases hne (by rw [hult]; simp) with ⟨c, l, hstack⟩
      have hnodup := hinv.nodup
      rw [hstack, List.nodup_cons] at hnodup
      simp only [next, hstack]
      exact slots_leave hinj h hstack hnodup.1
  | decideExchange =>
      rcases hg with ⟨refs, hult⟩
      rcases hne (by rw [hult]; simp) with ⟨c, l, hstack⟩
      simp only [next, hstack, hult]
      exact slots_decidePark hinj h (by rw [hstack]; exact List.mem_cons_self)
  | shareExchange k =>
      rcases hg with ⟨c, old, hk⟩
      simp only [next, hk]
      by_cases heq : s.word (P.home c) = old
      · rw [if_pos heq]
        exact slots_congr (slots_setWord hinj h (by rw [decode_share, heq])) rfl rfl rfl
      · rw [if_neg heq]
        exact slots_congr h rfl rfl rfl
  | wakeExchange k =>
      rcases hg with ⟨c, refs, hk⟩
      simp only [next, hk]
      exact slots_wakeExchange hinj h
  | poll | store | decideLoad =>
      simp only [next]
      split
      all_goals exact slots_congr h rfl rfl rfl
  | pending | finish | resume q | borrow c k | clone c k | cloneWaker k k' | drop k =>
      exact slots_congr h rfl rfl rfl
  | shareLoad k | wake k | read k | push k q =>
      simp only [next]
      split
      all_goals exact slots_congr h rfl rfl rfl
  | wakeLoad k =>
      simp only [next]
      split
      · split
        all_goals exact slots_congr h rfl rfl rfl
      · exact h

omit [DecidableEq C] [DecidableEq K] [DecidableEq Q] in
/-- With a slot for each call no step loses a word. -/
theorem kept_of_injective (hinj : Function.Injective P.home) {p : Spot K Q} (hinv : Inv P s p)
    (h : Slots P s) : Kept P s a := by
  cases a with
  | leave =>
      intro c l c' hstack howner
      -- The call that ends would be twice in the stack.
      have hc' := home_of_owner howner
      have hnodup := hinv.nodup
      rw [hstack, List.nodup_cons] at hnodup
      rw [hinj hc'.2] at hc'
      exact absurd hc'.1 hnodup.1
  | wakeLoad k =>
      intro c _ howner hidle
      exact absurd hidle (h.busy c (home_of_owner howner).1)
  | _ => trivial

theorem slots_reachable (hinj : Function.Injective P.home)
    (h : (system (K := K) (Q := Q) P).Reachable s) : (∃ p, Inv P s p) ∧ Slots P s := by
  refine h.induct (P := fun s => (∃ p, Inv P s p) ∧ Slots P s)
    (fun s hi => ⟨⟨.running, inv_init hi⟩, slots_init hi⟩) ?_
  intro s a ⟨⟨p, hinv⟩, hslots⟩ hg
  exact ⟨inv_next hinv hg (kept_of_injective hinj hinv hslots), slots_next hinj hinv hslots hg⟩

omit [DecidableEq C] in
theorem home_injective : Function.Injective (resumablePoller C).home :=
  fun _ _ h => h

omit [DecidableEq C] in
/-- With `UltPoller` the innermost call has the word. -/
theorem owner_ultPoller (l : List C) : owner (ultPoller C) () l = l.head? := by
  cases l with
  | nil => rfl
  | cons c l =>
      rw [owner_cons]
      exact if_pos rfl

/-- No inner call of `block_on` ends while the call around it has a wake it has
    not seen, and no wake of the innermost call, as that polls or parks, finds
    the word an inner call has left idle. -/
def Undisturbed (s : State C Unit K Q) : Action C K Q → Prop
  | .leave => ∀ c ∈ s.stack.tail.head?, s.woken c = false
  | .wakeLoad k =>
      s.ult.Blind → ∀ c ∈ s.stack.head?, s.waker k = .waking c → decode (s.word ()) ≠ .idle
  | _ => True

instance (s : State C Unit K Q) : ∀ a : Action C K Q, Decidable (Undisturbed s a)
  | .leave => inferInstanceAs (Decidable (∀ c ∈ s.stack.tail.head?, s.woken c = false))
  | .wakeLoad k =>
      inferInstanceAs (Decidable (s.ult.Blind →
        ∀ c ∈ s.stack.head?, s.waker k = .waking c → decode (s.word ()) ≠ .idle))
  | .enter _ | .poll | .pending | .finish | .store | .decideLoad | .decideExchange | .resume _
  | .borrow .. | .clone .. | .shareLoad _ | .shareExchange _ | .cloneWaker .. | .drop _
  | .wake _ | .wakeExchange _ | .read _ | .push .. => isTrue trivial

omit [DecidableEq C] [DecidableEq K] [DecidableEq Q] in
theorem kept_of_undisturbed {s : State C Unit K Q} (h : Undisturbed s a) :
    Kept (ultPoller C) s a := by
  cases a with
  | leave =>
      intro c l c' hstack howner
      rw [show (ultPoller C).home c = () from rfl, owner_ultPoller] at howner
      refine h c' ?_
      rw [hstack]
      exact howner
  | wakeLoad k =>
      intro c hk howner hidle
      rw [show (ultPoller C).home c = () from rfl, owner_ultPoller] at howner
      exact ⟨howner, fun hblind => h hblind c howner hk hidle⟩
  | _ => trivial

theorem inv_undisturbed {s : State C Unit K Q}
    (h : (system (ultPoller C)).ReachableIf Undisturbed s) : ∃ p, Inv (ultPoller C) s p := by
  refine h.induct (P := fun s => ∃ p, Inv (ultPoller C) s p)
    (fun s hi => ⟨.running, inv_init hi⟩) ?_
  intro s a ⟨p, hinv⟩ hg hc
  exact inv_next hinv hg (kept_of_undisturbed hc)

/-- After a step that disturbs a wake, the ULT can park and lose it. -/
theorem lost_of_disturbed {s : State C Unit K Q} {p : Spot K Q} (hinv : Inv (ultPoller C) s p)
    (hg : guard s a) (ha : ¬ Undisturbed s a) :
    ∃ bs, (system (ultPoller C)).Legal (next (ultPoller C) s a) bs ∧
      Lost ((system (ultPoller C)).run (next (ultPoller C) s a) bs) := by
  -- The thread of the poll runs: it is in no queue, and no waker claims it.
  have hrun : s.ult ≠ .suspended → (∀ q, s.queue q = 0) ∧ ∀ k, ¬ (s.waker k).Claims := by
    intro hu
    have hp : p = .running := hinv.running.mp hu
    refine ⟨fun q => (hinv.queue q).2 (by rw [hp]; simp), fun k hk => ?_⟩
    rw [(hinv.waker k).mp hk] at hp
    cases hp
  have hidle : decode idle ≠ .notified := by decide
  cases a with
  | leave =>
      have hult : s.ult = .leaving := hg
      rcases hrun (by rw [hult]; simp) with ⟨hqueue, hclaims⟩
      simp only [Undisturbed, not_forall, Bool.not_eq_false] at ha
      rcases ha with ⟨c', hc', hwoken⟩
      -- The inner call `c` has idled the word, and `c'` is to park in it.
      cases hs : s.stack with
      | nil =>
          rw [hs] at hc'
          cases hc'
      | cons c l =>
          rw [hs] at hc'
          cases hl : l with
          | nil =>
              rw [hl] at hc'
              cases hc'
          | cons c'' l' =>
              rw [hl] at hc'
              cases hc'
              simp only [next, hs, hl]
              exact lost_of_blind (P := ultPoller C)
                (s := { s.setWord () idle with stack := c' :: l', ult := .polling })
                rfl hwoken (by simpa only [State.setWord, Function.update_self] using hidle)
                hqueue hclaims trivial
  | wakeLoad k =>
      simp only [Undisturbed, not_forall, not_not] at ha
      -- The wake finds the word idle, and takes it for a poll that is not parked.
      rcases ha with ⟨hblind, c, hc, hk, hword⟩
      rcases hrun (by intro hu; rw [hu] at hblind; exact hblind) with ⟨hqueue, hclaims⟩
      have hout : wakeTry (s.word ()) = .done .noOp := by
        rcases decode_wakeTry (s.word ()) with ⟨hold, -⟩ | ⟨hold, -⟩ | ⟨-, hout⟩
        · rw [hword] at hold
          cases hold
        · rw [hword] at hold
          cases hold
        · exact hout
      have hnext : next (ultPoller C) s (.wakeLoad k) = (s.setWaker k (.held c)).wokenBy c := by
        simp only [next, hk]
        rw [show (ultPoller C).home c = () from rfl, hout]
      cases hs : s.stack with
      | nil =>
          rw [hs] at hc
          cases hc
      | cons t l =>
          rw [hs] at hc
          cases hc
          rw [hnext]
          refine lost_of_blind (P := ultPoller C) (c := c) (l := l) hs ?_ ?_ hqueue ?_ hblind
          · change Function.update s.woken c true c = true
            rw [Function.update_self]
          · change decode (s.word ()) ≠ .notified
            rw [hword]
            simp
          · intro k'
            change ¬ (Function.update s.waker k (.held c) k').Claims
            by_cases hkk : k' = k
            · rw [hkk, Function.update_self]
              rintro ⟨⟩
            · rw [Function.update_of_ne hkk]
              exact hclaims k'
  | _ => exact absurd trivial ha

/-- Runs of a ULT with `UltPoller` lose no wake while their steps are
    undisturbed, and after any other step the wake can be lost. No run with
    `ResumablePoller` loses one. -/
theorem block_on_notLost :
    (∀ s : State C Unit K Q, (system (ultPoller C)).ReachableIf Undisturbed s → ¬ Lost s) ∧
    (∀ (s : State C Unit K Q) (a : Action C K Q),
      (system (ultPoller C)).ReachableIf Undisturbed s → guard s a → ¬ Undisturbed s a →
      ∃ bs, (system (ultPoller C)).Legal (next (ultPoller C) s a) bs ∧
        Lost ((system (ultPoller C)).run (next (ultPoller C) s a) bs)) ∧
    ∀ s : State C C K Q, (system (resumablePoller C)).Reachable s → ¬ Lost s := by
  refine ⟨?_, ?_, ?_⟩
  · intro s h
    rcases inv_undisturbed h with ⟨p, hinv⟩
    exact not_lost hinv
  · intro s a h hg ha
    rcases inv_undisturbed h with ⟨p, hinv⟩
    exact lost_of_disturbed hinv hg ha
  · intro s h
    rcases (slots_reachable home_injective h).1 with ⟨p, hinv⟩
    exact not_lost hinv

/-- A ULT that has not called `block_on`. -/
def outside (D : Type*) : State ℕ D Unit Unit where
  word _ := idle
  cont _ := none
  stack := []
  started _ := false
  ult := .polling
  waker _ := .none
  queue _ := 0
  parks := 0
  pushes := 0
  woken _ := false

theorem init_outside (D : Type*) : init (outside D) :=
  ⟨rfl, fun _ => rfl, rfl, fun _ => rfl, fun _ => rfl, rfl, fun _ => rfl⟩

/-- A call makes another from its poll. It is woken before that, and the inner
    call has yet to end. -/
def wokenInside : List (Action ℕ Unit Unit) :=
  [.enter 0, .poll, .borrow 0 (), .wake (), .wakeLoad (), .wakeExchange (), .enter 1, .poll,
    .finish]

/-- The inner call ends before the other parks and is woken. -/
def wokenParked (cell : Bool) : List (Action ℕ Unit Unit) :=
  [Action.enter 0, .poll, .borrow 0 (), .enter 1, .poll, .finish, .leave, .pending] ++
    (if cell then [Action.store] else []) ++
    [Action.decideLoad, .decideExchange, .wake (), .wakeLoad (), .wakeExchange ()]

theorem reachable_wokenInside :
    (system (ultPoller ℕ)).ReachableIf Undisturbed
      ((system (ultPoller ℕ)).run (outside Unit) wokenInside) :=
  (system (ultPoller ℕ)).reachableIf_run wokenInside _ (.init _ (init_outside Unit))
    (by decide +kernel) (by decide +kernel)

theorem block_on_notLost_nested :
    ¬ Lost ((system (ultPoller ℕ)).run (outside Unit) (wokenParked false)) ∧
    (∃ bs, (system (ultPoller ℕ)).Legal
        (next (ultPoller ℕ) ((system (ultPoller ℕ)).run (outside Unit) wokenInside) .leave) bs ∧
      Lost ((system (ultPoller ℕ)).run
        (next (ultPoller ℕ) ((system (ultPoller ℕ)).run (outside Unit) wokenInside) .leave) bs)) ∧
    ¬ Lost ((system (resumablePoller ℕ)).run (outside ℕ) (wokenParked true)) := by
  refine ⟨block_on_notLost.1 _ ?_, ?_, block_on_notLost.2.2 _ ?_⟩
  · exact (system (ultPoller ℕ)).reachableIf_run (wokenParked false) _
      (.init _ (init_outside Unit)) (by decide +kernel) (by decide +kernel)
  · exact block_on_notLost.2.1 _ .leave reachable_wokenInside (by decide +kernel)
      (by decide +kernel)
  · exact (system (resumablePoller ℕ)).reachable_run (wokenParked true) _ (init_outside ℕ)
      (by decide +kernel)

/-- The outer call is woken, the inner one ends, and the outer one parks. -/
def parkedWoken : List (Action ℕ Unit Unit) :=
  wokenInside ++ [Action.leave, .pending, .decideLoad, .decideExchange]

theorem ultPoller_lost :
    ∃ s : State ℕ Unit Unit Unit, (system (ultPoller ℕ)).Reachable s ∧ Lost s := by
  refine ⟨(system (ultPoller ℕ)).run (outside Unit) parkedWoken,
    (system (ultPoller ℕ)).reachable_run parkedWoken _ (init_outside Unit) (by decide +kernel), ?_⟩
  exact ⟨by decide +kernel, fun () => by decide +kernel, fun () => by decide +kernel, 0,
    by decide +kernel, by decide +kernel⟩

/-- What the wakers of the calls of a ULT do to it. -/
structure Resumed (s : State C C K Q) : Prop where
  /-- The ULT is pushed once for each time it parks. -/
  once : s.pushes ≤ 1
  queued : ∀ q, 0 < s.queue q → s.ult = .suspended ∧ s.pushes = 1 ∧ s.queue q = 1 ∧
    ∀ q', 0 < s.queue q' → q' = q
  claimed : ∀ k, (s.waker k).Claims → s.ult = .suspended ∧ s.pushes = 0 ∧
    (∀ q, s.queue q = 0) ∧ ∀ k', (s.waker k').Claims → k' = k
  /-- The cell that is read is that of the call the ULT is parked in. -/
  read : ∀ k c, s.waker k = .claimed c → s.stack.head? = some c ∧ s.cont c = some s.parks
  pushed : ∀ k c wait, s.waker k = .pushing c wait →
    s.stack.head? = some c ∧ wait = some s.parks
  notLost : ¬ Lost s
  /-- A waker that has outlived its call does nothing. -/
  ended : ∀ c, s.started c = true → c ∉ s.stack →
    decode (s.word c) = .idle ∧ ∀ k, (s.waker k).call = some c → ¬ (s.waker k).Claims

/-- With `ResumablePoller` the ULT is pushed once for each time it parks, by the
    one waker that has claimed that wait and reads its continuation. -/
theorem resumable_resumed (s : State C C K Q) (h : (system (resumablePoller C)).Reachable s) :
    Resumed s := by
  obtain ⟨⟨p, hinv⟩, hslots⟩ := slots_reachable home_injective h
  -- A waker that has claimed the ULT is one of the call on top.
  have hhead : ∀ k c, (s.waker k).Claims → (s.waker k).call = some c →
      s.stack.head? = some c := by
    intro k c hk hc
    rcases hinv.home k c hk hc with ⟨t, ht, hct⟩
    rw [ht, home_injective hct]
  have hsusp : p ≠ .running → s.ult = .suspended := by
    intro hp
    by_contra hu
    exact hp (hinv.running.mp hu)
  have hat : ∀ q, 0 < s.queue q → p = .queue q := by
    intro q hq
    by_contra hne
    have := (hinv.queue q).2 hne
    omega
  -- The fields of `Resumed`, from the invariant's.
  constructor
  · exact hinv.pushes
  · intro q hq
    have hp := hat q hq
    refine ⟨hsusp (by rw [hp]; nofun), hinv.pushed q hp, (hinv.queue q).1 hp, ?_⟩
    intro q' hq'
    have hp' := hat q' hq'
    rw [hp] at hp'
    cases hp'
    rfl
  · intro k hk
    have hp := (hinv.waker k).mp hk
    refine ⟨hsusp (by rw [hp]; nofun), hinv.unpushed (Or.inr ⟨k, hp⟩),
      fun q => (hinv.queue q).2 (by rw [hp]; nofun), ?_⟩
    intro k' hk'
    have hp' := (hinv.waker k').mp hk'
    rw [hp] at hp'
    cases hp'
    rfl
  · intro k c hk
    have hclaims : (s.waker k).Claims := by rw [hk]; trivial
    have hc := hhead k c hclaims (by rw [hk]; rfl)
    have hu := hsusp (by rw [(hinv.waker k).mp hclaims]; nofun)
    exact ⟨hc, hinv.cont rfl (by rw [hu]; trivial) c hc⟩
  · intro k c wait hk
    exact ⟨hhead k c (by rw [hk]; trivial) (by rw [hk]; rfl), hinv.token k c wait hk⟩
  · exact not_lost hinv
  · intro c hc hover
    refine ⟨hslots.ended c hover hc, ?_⟩
    intro k hk hclaims
    exact hover (List.mem_of_head? (hhead k c hclaims hk))

/-- The ULT parks, a clone of its waker has it pushed, and another wake comes
    when the call is over. -/
def wokenAfter : List (Action ℕ Unit Unit) :=
  [.enter 0, .poll, .clone 0 (), .pending, .store, .decideLoad, .decideExchange, .wake (),
    .wakeLoad (), .wakeExchange (), .read (), .push () (), .resume (), .poll, .finish, .leave,
    .wake (), .wakeLoad ()]

theorem resumable_resumed_wokenAfter :
    ((system (resumablePoller ℕ)).run (outside ℕ) wokenAfter).pushes = 1 ∧
      Resumed ((system (resumablePoller ℕ)).run (outside ℕ) wokenAfter) := by
  refine ⟨by decide +kernel, resumable_resumed _ ?_⟩
  exact (system (resumablePoller ℕ)).reachable_run wokenAfter _ (init_outside ℕ)
    (by decide +kernel)

end BlockOn

end Waker

end Cmpth

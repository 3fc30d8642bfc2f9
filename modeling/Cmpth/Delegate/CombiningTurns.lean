import Cmpth.Delegate.CombiningInv

/-!
# Turns in `CombiningDelegator`

The steps in which a caller has its turn, and those in which the consumer or the
lock changes hands.

## Theorems

* `inv_handBack`: The consumer hands back the call whose node the holder is at.
* `inv_pass`: The holder hands the lock to the caller that is next.
* `inv_turn`: The holder has its own turn.
* `inv_run`: The holder runs the request of the caller that is next.
* `Caller.Deferred.final`, `History.head_notMem`, `History.turn`: A call that is handed back, and
  the next turn.
-/

namespace Cmpth

namespace Delegate

namespace Combining

variable {K Req Resp : Type*} [DecidableEq K]

section

variable {s s' : State K Req Resp} {u : List K} {k : K} {c : Caller K Req Resp}

omit [DecidableEq K] in
/-- A call that the consumer hands back has completed. -/
theorem Caller.Deferred.final (h : c.Deferred) (hkept : c.kept = .completed) :
    Caller.Final { c with kept := .nothing } := by
  rcases h with ⟨_, hvalue, hx | ⟨_, hgiven, hout⟩⟩
  · rw [hkept] at hx
    cases hx
  · exact ⟨rfl, fun _ => ⟨hgiven, .inr ⟨hvalue, hout⟩⟩⟩

/-- The consumer hands back the call whose node the holder is at. -/
theorem inv_handBack (h : Inv s u) {f : Frame K} {r : K}
    (hpc : (s.caller k).pc = .draining f .progressing) (hcur : f.cur ≠ k) (hr : r = f.cur)
    (hkept : (s.caller r).kept = .completed)
    (hp : Pair s s' k { s.caller k with pc := .draining { f with wake := some r } .progressing } r
      { s.caller r with kept := .nothing })
    (htail : s'.tail = s.tail) (horder : s'.order = s.order) (hserved : s'.served = s.served)
    (hexecuted : s'.executed = s.executed) : Inv s' u := by
  have href : (s.caller k).pc.ref k = some r := by
    rw [hpc, hr]
    exact if_neg hcur
  -- The one that is handed back is asleep, and had its turn.
  rcases h.refs.asleep k r href with ⟨hpcr, hranr⟩
  have hokk := h.ok k
  unfold Caller.Ok at hokk
  rw [hpc] at hokk
  rcases hokk with ⟨hown, _, _⟩
  have hokr := h.ok r
  unfold Caller.Ok at hokr
  rw [hpcr] at hokr
  rcases hokr with ⟨hwoken, hvalue, hsth, _, hran⟩
  -- Nobody is to let go anybody else than before, and nobody else is to let go `r`.
  have hold : ∀ k' x, (s'.caller k').pc.ref k' = some x → (s.caller k').pc.ref k' = some x := by
    refine hp.all (P := fun k' d => ∀ x, d.pc.ref k' = some x →
      (s.caller k').pc.ref k' = some x) (fun x => ?_) (fun _ => id) fun _ _ _ _ => id
    rw [hpc]
    exact id
  refine inv_steady h ?_ htail horder hserved hexecuted ?_ (hp.still h.history hown.1 hranr) ?_ ?_
    ⟨fun k' x hx => ?_, fun k' x hx => ?_, fun k₁ k₂ x h₁ h₂ => ?_, ?_⟩
  · refine hp.all (P := fun x d => Steady (s.caller x) d) ?_
      ⟨rfl, rfl, rfl, fun _ => rfl, Iff.rfl, Iff.rfl⟩ fun x _ _ => .refl _
    refine ⟨rfl, rfl, rfl, id, iff_of_false nofun ?_, iff_of_true trivial ?_⟩ <;> rw [hpc]
    · nofun
    · trivial
  · refine hp.all (P := fun x d => d.Ok x) ⟨hown, ⟨fun hx => absurd hx hcur, ?_⟩, nofun⟩ ?_
      fun x _ _ => h.ok x
    · rintro x ⟨⟩
      exact hr
    · unfold Caller.Ok
      simp only [hpcr]
      refine ⟨hwoken, hvalue, hsth, fun hx => ?_, fun hx => ?_⟩
      · rw [hranr] at hx
        cases hx
      · rcases hran hx with ⟨hasked, hd | hd⟩
        · exact ⟨hasked, .inr (hd.final hkept)⟩
        · rw [hd.1] at hkept
          cases hkept
  · exact hp.all (P := fun _ d => ∀ f, d.pc = .draining f .releasing → _)
      (fun f hf => by cases hf) (h.settled r) fun x _ _ => h.settled x
  · refine hp.all (P := fun x d => d.pc.Holds → s.Place x u d.pc) (fun _ => ?_) (h.place r)
      fun x _ _ => h.place x
    have hplace := h.place k (by rw [hpc]; trivial)
    rw [hpc] at hplace
    exact ⟨hplace.1, nofun, nofun⟩
  · have hxr := h.refs.asleep k' x (hold k' x hx)
    revert hxr
    refine hp.all (P := fun x d => (s.caller x).pc = .asleep ∧ (s.caller x).ran = true →
      d.pc = .asleep ∧ d.ran = true) (fun hxk => ?_) id (fun _ _ _ => id) x
    rw [hpc] at hxk
    cases hxk.1
  · -- The others that refer to `r` would have been the holder.
    have hx := hold k' x hx
    by_cases hxr : x = r
    · subst hxr
      rw [h.refs.inj k' k x hx href, hp.fst, hp.snd]
      exact iff_of_true rfl rfl
    · have hne : ∀ y, (s.caller y).pc.ref y = some x → y ≠ k ∧ y ≠ r := by
        intro y hy
        refine ⟨fun hyk => hxr ?_, fun hyr => ?_⟩
        · rw [hyk, href] at hy
          exact (Option.some.inj hy).symm
        · rw [hyr, hpcr] at hy
          cases hy
      have hxk : x ≠ k := by
        rintro rfl
        have hx' := (h.refs.asleep k' x hx).1
        rw [hpc] at hx'
        cases hx'
      rw [hp.rest x hxk hxr, hp.rest k' (hne k' hx).1 (hne k' hx).2]
      exact h.refs.wake k' x hx
  · exact h.refs.inj k₁ k₂ x (hold k₁ x h₁) (hold k₂ x h₂)
  · have hback : ∀ k' x, (s.caller k').pc.ref k' = some x → (s'.caller k').pc.ref k' = some x := by
      refine hp.all (P := fun k' d => ∀ x, (s.caller k').pc.ref k' = some x →
        d.pc.ref k' = some x) (fun x => ?_) (fun _ => id) fun _ _ _ _ => id
      rw [hpc]
      exact id
    refine hp.all (P := fun x d => d.pc = .asleep → d.ran = true → d.kept = .nothing →
      ∃ k', (s'.caller k').pc.ref k' = some x) nofun (fun _ _ _ => ⟨k, hback k r href⟩) ?_
    intro x _ _ hxpc hxran hxkept
    rcases h.refs.covered x hxpc hxran hxkept with ⟨k', hk'⟩
    exact ⟨k', hback k' x hk'⟩

omit [DecidableEq K] in
/-- The next caller to be served is not in what comes after it. -/
theorem History.head_notMem {n : K} {w : List K} (h : History s (n :: w)) : n ∉ w := by
  have hnodup := h.nodup
  rw [h.order] at hnodup
  exact (List.nodup_cons.mp (List.nodup_append.mp hnodup).2.1).1

/-- The holder hands the lock to the caller that is next. -/
theorem inv_pass (h : Inv s u) {n : K} {w : List K} (hu : u = n :: w)
    (hq : Queue s.caller s.tail n w) (hpcn : (s.caller n).pc = .asleep)
    (hasked : (s.caller n).asked = none) (hholds : (s.caller k).pc.Holds)
    (hrefk : (s.caller k).pc.ref k = none) (hrank : (s.caller k).ran = true)
    {pc : Pc K Resp} (hpc : pc = .returning ∨ pc = .asleep ∧ (s.caller k).kept ≠ .nothing)
    (hok : Caller.Ok k { s.caller k with pc := pc })
    (hp : Pair s s' k { s.caller k with pc := pc } n
      { s.caller n with sth := false, woken := true, pc := .inside })
    (htail : s'.tail = s.tail) (horder : s'.order = s.order) (hserved : s'.served = s.served)
    (hexecuted : s'.executed = s.executed) : Inv s' u := by
  have hn : n ∈ u := by
    rw [hu]
    exact List.mem_cons_self
  -- The head of the queue has not had its turn, and the holder has.
  have hrann := h.history.not_ran hn
  have hnk : n ≠ k := by
    rintro rfl
    rw [hrann] at hrank
    cases hrank
  have hokn := h.ok n
  unfold Caller.Ok at hokn
  rw [hpcn] at hokn
  have hkeptn := (hokn.2.2.2.1 hrann).1
  have hgone : ¬ pc.Holds ∧ pc.ref k = none ∧ pc ≠ .idle := by
    rcases hpc with rfl | ⟨rfl, _⟩ <;> exact ⟨id, rfl, nofun⟩
  have hlock : TryLock s'.tail.isSome fun x => (s'.caller x).pc.Holds := by
    rw [htail]
    refine h.lock.pass k n hholds ?_ ?_ fun x hxk hxn => ?_
    · rw [hp.fst]
      exact hgone.1
    · rw [hp.snd]
      trivial
    · rw [hp.rest x hxk hxn]
  -- The new holder is the only one.
  have honly : ∀ x, (s'.caller x).pc.Holds → x = n := fun x hx =>
    hlock.one x n hx (by rw [hp.snd]; trivial)
  -- What others refer to is asleep, and is neither of the two.
  have hold : ∀ k' x, (s'.caller k').pc.ref k' = some x →
      (s.caller k').pc.ref k' = some x ∧ (s'.caller k').pc.wake = (s.caller k').pc.wake ∧
        s'.caller x = s.caller x := by
    intro k' x hx
    have hk' : (s.caller k').pc.ref k' = some x ∧
        (s'.caller k').pc.wake = (s.caller k').pc.wake := by
      revert hx
      refine hp.all (P := fun k' d => d.pc.ref k' = some x →
        (s.caller k').pc.ref k' = some x ∧ d.pc.wake = (s.caller k').pc.wake)
        (fun hx => ?_) nofun (fun k' _ _ hx => ⟨hx, rfl⟩) k'
      rw [show ({ s.caller k with pc := pc } : Caller K Req Resp).pc.ref k = none from hgone.2.1]
        at hx
      cases hx
    have hx' := h.refs.asleep k' x hk'.1
    refine ⟨hk'.1, hk'.2, hp.rest x ?_ ?_⟩
    · rintro rfl
      rw [hx'.1] at hholds
      exact hholds
    · rintro rfl
      rw [hrann] at hx'
      cases hx'.2
  exact
    -- The queue is the same; its head has the lock now.
    { ok := hp.all (P := fun x d => d.Ok x) hok ⟨hrann, hkeptn, hasked⟩ fun x _ _ => h.ok x
      history := by
        refine h.history.congr horder hserved hexecuted ?_ ?_ ?_
        · refine hp.all (P := fun x d => d.pc = .idle ↔ (s.caller x).pc = .idle) ?_ ?_
            fun _ _ _ => Iff.rfl
          · refine iff_of_false hgone.2.2 fun hx => ?_
            rw [hx] at hholds
            exact hholds
          · rw [hpcn]
            exact iff_of_false nofun nofun
        · exact hp.all (P := fun x d => d.ran = (s.caller x).ran) rfl rfl fun _ _ _ => rfl
        · exact hp.all (P := fun x d => d.asked = (s.caller x).asked) rfl rfl fun _ _ _ => rfl
      lock := hlock
      free := fun ht => by
        have htaken := h.lock.taken k hholds
        rw [← htail, ht] at htaken
        cases htaken
      settled := fun x f hf y => by
        have hxn := honly x (by rw [hf]; trivial)
        rw [hxn, hp.snd] at hf
        cases hf
      place := fun x hx => by
        rw [honly x hx, hp.snd]
        refine ⟨w, hu, ?_⟩
        rw [htail]
        have hwu : ∀ x ∈ w, x ∈ u := fun x hx => by
          rw [hu]
          exact List.mem_cons_of_mem _ hx
        refine hq.congr (fun a _ => ?_) fun b hb => ?_
        · exact hp.all (P := fun a d => d.next = (s.caller a).next) rfl rfl (fun _ _ _ => rfl) a
        · have hbk : b ≠ k := by
            rintro rfl
            rw [h.history.not_ran (hwu b hb)] at hrank
            cases hrank
          have hbn : b ≠ n := by
            rintro rfl
            rw [hu] at h
            exact h.history.head_notMem hb
          unfold Still
          rw [hp.rest b hbk hbn]
          exact ⟨rfl, .inl rfl⟩
      refs :=
        { asleep := fun k' x hx => by
            rw [(hold k' x hx).2.2]
            exact h.refs.asleep k' x (hold k' x hx).1
          wake := fun k' x hx => by
            rw [(hold k' x hx).2.2, (hold k' x hx).2.1]
            exact h.refs.wake k' x (hold k' x hx).1
          inj := fun k₁ k₂ x h₁ h₂ => h.refs.inj k₁ k₂ x (hold k₁ x h₁).1 (hold k₂ x h₂).1
          covered := by
            have hback : ∀ k' x, (s.caller k').pc.ref k' = some x →
                (s'.caller k').pc.ref k' = some x := by
              refine hp.all (P := fun k' d => ∀ x, (s.caller k').pc.ref k' = some x →
                d.pc.ref k' = some x) (fun x hx => ?_) (fun x hx => ?_) fun _ _ _ _ => id
              · rw [hrefk] at hx
                cases hx
              · rw [hpcn] at hx
                cases hx
            refine hp.all (P := fun x d => d.pc = .asleep → d.ran = true → d.kept = .nothing →
              ∃ k', (s'.caller k').pc.ref k' = some x) (fun hx _ hkept => ?_) nofun
              fun x _ _ hxpc hxran hxkept => ?_
            · rcases hpc with rfl | ⟨_, hne⟩
              · cases hx
              · exact absurd hkept hne
            · rcases h.refs.covered x hxpc hxran hxkept with ⟨k', hk'⟩
              exact ⟨k', hback k' x hk'⟩ } }

omit [DecidableEq K] in
/-- The next caller has its turn. -/
theorem History.turn {n : K} {w : List K} (h : History s (n :: w)) (horder : s'.order = s.order)
    (hserved : s'.served = s.served ++ [n])
    (hexecuted : s'.executed = s.executed ++ (s.caller n).asked.toList.map (n, ·))
    (hidle : ∀ x, (s'.caller x).pc = .idle ↔ (s.caller x).pc = .idle)
    (hran : ∀ x, (s'.caller x).ran = true ↔ x = n ∨ (s.caller x).ran = true)
    (hasked : ∀ x, (s'.caller x).asked = (s.caller x).asked) : History s' w where
  order := by
    rw [horder, hserved, h.order, List.append_assoc]
    rfl
  nodup := by
    rw [horder]
    exact h.nodup
  known := fun x => by
    rw [horder, Ne, hidle x]
    exact h.known x
  ran := fun x => by
    rw [hserved, hran x, List.mem_append, List.mem_singleton, h.ran x]
    exact or_comm
  executed := by
    rw [hexecuted, hserved, h.executed, requests_congr fun x _ => hasked x]
    unfold requests
    rw [List.filterMap_append]
    refine congrArg _ ?_
    cases hx : (s.caller n).asked with
    | none => simp [hx]
    | some r => simp [hx]

/-- The holder, which nobody runs for, has its turn. -/
theorem inv_turn (h : Inv s u) {w : List K} {own : Bool} (hu : u = k :: w)
    (hq : Queue s.caller s.tail k w) (hholds : (s.caller k).pc.Holds)
    (hrefk : (s.caller k).pc.ref k = none) (hpc : c.pc = .draining ⟨k, none, own⟩ .polling)
    (hown : c.Own own) (hasked : c.asked = (s.caller k).asked)
    (hnext : c.next = (s.caller k).next) (hcaller : s'.caller = (s.set k c).caller)
    (htail : s'.tail = s.tail) (horder : s'.order = s.order)
    (hserved : s'.served = s.served ++ [k])
    (hexecuted : s'.executed = s.executed ++ (s.caller k).asked.toList.map (k, ·)) : Inv s' w := by
  subst hu
  have hsteady : ∀ {P : K → Caller K Req Resp → Prop}, P k c →
      (∀ r, r ≠ k → P r (s.caller r)) → ∀ r, P r (s'.caller r) := by
    intro P hk hr
    rw [hcaller]
    exact set_cases hk hr
  -- The holder is the head of the queue, and has its own turn.
  have hself : s'.caller k = c := by
    rw [hcaller, set_self]
  have hkw := h.history.head_notMem
  have hrefc : c.pc.ref k = none := by
    rw [hpc]
    exact if_pos rfl
  have hlock : TryLock s'.tail.isSome fun x => (s'.caller x).pc.Holds := by
    rw [htail, hcaller]
    refine h.lock.update k (fun x hx => ?_) (.inl ⟨rfl, iff_of_true ?_ hholds⟩)
    · rw [set_ne hx]
    · rw [set_self, hpc]
      trivial
  have honly : ∀ x, (s'.caller x).pc.Holds → x = k := fun x hx =>
    hlock.one x k hx (by rw [hself, hpc]; trivial)
  -- Nobody lets the holder go, and the holder lets nobody go.
  have hold : ∀ k' x, (s'.caller k').pc.ref k' = some x →
      k' ≠ k ∧ (s.caller k').pc.ref k' = some x ∧ s'.caller k' = s.caller k' ∧
        s'.caller x = s.caller x := by
    intro k' x hx
    have hk' : k' ≠ k := by
      rintro rfl
      rw [hself, hrefc] at hx
      cases hx
    have heq : s'.caller k' = s.caller k' := by rw [hcaller, set_ne hk']
    rw [heq] at hx
    refine ⟨hk', hx, heq, ?_⟩
    rw [hcaller, set_ne]
    rintro rfl
    rw [(h.refs.asleep k' x hx).1] at hholds
    exact hholds
  exact
    -- The queue is what was behind it, and the history grows by the holder alone.
    { ok := by
        refine hsteady (P := fun x d => d.Ok x) ?_ fun x _ => h.ok x
        unfold Caller.Ok
        rw [hpc]
        exact ⟨hown, ⟨fun _ => rfl, nofun⟩, nofun⟩
      history := by
        refine h.history.turn horder hserved hexecuted ?_ ?_ ?_
        · refine hsteady (P := fun x d => d.pc = .idle ↔ (s.caller x).pc = .idle) ?_
            fun _ _ => Iff.rfl
          rw [hpc]
          refine iff_of_false nofun fun hx => ?_
          rw [hx] at hholds
          exact hholds
        · refine hsteady (P := fun x d => d.ran = true ↔ x = k ∨ (s.caller x).ran = true)
            (iff_of_true hown.1 (.inl rfl)) fun x hx => ?_
          simp only [hx, false_or]
        · exact hsteady (P := fun x d => d.asked = (s.caller x).asked) hasked fun _ _ => rfl
      lock := hlock
      free := fun ht => by
        have htaken := h.lock.taken k hholds
        rw [← htail, ht] at htaken
        cases htaken
      settled := fun x f hf y => by
        rw [honly x (by rw [hf]; trivial), hself, hpc] at hf
        cases hf
      place := fun x hx => by
        rw [honly x hx, hself, hpc]
        refine ⟨?_, nofun, nofun⟩
        rw [htail]
        refine hq.congr (fun a _ => ?_) fun b hb => ?_
        · exact hsteady (P := fun a d => d.next = (s.caller a).next) hnext (fun _ _ => rfl) a
        · have hbk : b ≠ k := by
            rintro rfl
            exact hkw hb
          unfold Still
          rw [hcaller, set_ne hbk]
          exact ⟨rfl, .inl rfl⟩
      refs :=
        { asleep := fun k' x hx => by
            rw [(hold k' x hx).2.2.2]
            exact h.refs.asleep k' x (hold k' x hx).2.1
          wake := fun k' x hx => by
            rw [(hold k' x hx).2.2.2, (hold k' x hx).2.2.1]
            exact h.refs.wake k' x (hold k' x hx).2.1
          inj := fun k₁ k₂ x h₁ h₂ => h.refs.inj k₁ k₂ x (hold k₁ x h₁).2.1 (hold k₂ x h₂).2.1
          covered := by
            refine hsteady (P := fun x d => d.pc = .asleep → d.ran = true → d.kept = .nothing →
              ∃ k', (s'.caller k').pc.ref k' = some x) (fun hx => ?_)
              fun x _ hxpc hxran hxkept => ?_
            · rw [hpc] at hx
              cases hx
            · rcases h.refs.covered x hxpc hxran hxkept with ⟨k', hk'⟩
              refine ⟨k', ?_⟩
              rw [hcaller, set_ne]
              · exact hk'
              · rintro rfl
                rw [hrefk] at hk'
                cases hk' } }

/-- The holder runs the request of the caller that is next. -/
theorem inv_run (h : Inv s u) {own : Bool} {n : K} {w : List K} {wake : Option K}
    {d : Caller K Req Resp} (hpc : (s.caller k).pc = .running own n) (hu : u = n :: w)
    (hq : Queue s.caller s.tail n w) (hpcn : (s.caller n).pc = .asleep)
    (hp : Pair s s' k { s.caller k with pc := .draining ⟨n, wake, own⟩ .polling } n d)
    (hran : d.ran = true) (hasked : d.asked = (s.caller n).asked)
    (hnext : d.next = (s.caller n).next) (hpcd : d.pc = .asleep) (hok : d.Ok n)
    (hwake : wake = if d.kept = .nothing then some n else none) (htail : s'.tail = s.tail)
    (horder : s'.order = s.order) (hserved : s'.served = s.served ++ [n])
    (hexecuted : s'.executed = s.executed ++ (s.caller n).asked.toList.map (n, ·)) :
    Inv s' w := by
  subst hu
  -- The one that is run is the head of the queue, and neither the holder nor behind it.
  have hrann := h.history.not_ran (List.mem_cons_self (a := n) (l := w))
  have hnw := h.history.head_notMem
  have hokk := h.ok k
  unfold Caller.Ok at hokk
  rw [hpc] at hokk
  have hown : (s.caller k).Own own := hokk
  have hnk : n ≠ k := by
    rintro rfl
    rw [hown.1] at hrann
    cases hrann
  have hkw : k ∉ w := fun hx => by
    have hnot := h.history.not_ran (List.mem_cons_of_mem n hx)
    rw [hown.1] at hnot
    cases hnot
  -- The lock stays with the holder.
  have hlock : TryLock s'.tail.isSome fun x => (s'.caller x).pc.Holds := by
    have hsame : (fun x => (s'.caller x).pc.Holds) = fun x => (s.caller x).pc.Holds := by
      funext x
      refine propext ?_
      refine hp.all (P := fun x d => d.pc.Holds ↔ (s.caller x).pc.Holds) ?_ ?_
        (fun _ _ _ => Iff.rfl) x
      · rw [hpc]
        exact Iff.rfl
      · rw [hpcd, hpcn]
    rw [htail, hsame]
    exact h.lock
  have honly : ∀ x, (s'.caller x).pc.Holds → x = k := fun x hx =>
    hlock.one x k hx (by rw [hp.fst]; trivial)
  have hrefk : ({ s.caller k with pc := .draining ⟨n, wake, own⟩ .polling } :
      Caller K Req Resp).pc.ref k = some n := if_neg hnk
  -- Apart from the holder at its new node, nobody has changed.
  have hold : ∀ k' x, (s'.caller k').pc.ref k' = some x → k' = k ∧ x = n ∨
      (s.caller k').pc.ref k' = some x ∧ s'.caller k' = s.caller k' ∧
        s'.caller x = s.caller x := by
    intro k' x hx
    by_cases hk : k' = k
    · rw [hk, hp.fst, hrefk] at hx
      exact .inl ⟨hk, (Option.some.inj hx).symm⟩
    · have hk'n : k' ≠ n := by
        rintro rfl
        rw [hp.snd, hpcd] at hx
        cases hx
      rw [hp.rest k' hk hk'n] at hx
      rcases h.refs.asleep k' x hx with ⟨hxpc, hxran⟩
      refine .inr ⟨hx, hp.rest k' hk hk'n, hp.rest x ?_ ?_⟩
      · rintro rfl
        rw [hpc] at hxpc
        cases hxpc
      · rintro rfl
        rw [hrann] at hxran
        cases hxran
  exact
    -- The history grows by `n` alone, whose turn it was; the queue is what was behind it.
    { ok := by
        refine hp.all (P := fun x d => d.Ok x) ⟨hown, ⟨fun hx => absurd hx hnk, ?_⟩, nofun⟩ hok
          fun x _ _ => h.ok x
        intro r hr
        have hr : wake = some r := hr
        rw [hwake] at hr
        split at hr
        · exact (Option.some.inj hr).symm
        · cases hr
      history := by
        refine h.history.turn horder hserved hexecuted ?_ ?_ ?_
        · refine hp.all (P := fun x d => d.pc = .idle ↔ (s.caller x).pc = .idle) ?_ ?_
            fun _ _ _ => Iff.rfl
          · rw [hpc]
            exact iff_of_false nofun nofun
          · rw [hpcd, hpcn]
        · refine hp.all (P := fun x d => d.ran = true ↔ x = n ∨ (s.caller x).ran = true) ?_
            (iff_of_true hran (.inl rfl)) fun x _ hx => ?_
          · exact iff_of_true hown.1 (.inr hown.1)
          · simp only [hx, false_or]
        · exact hp.all (P := fun x d => d.asked = (s.caller x).asked) rfl hasked fun _ _ _ => rfl
      lock := hlock
      free := fun ht => by
        have htaken := h.lock.taken k (by rw [hpc]; trivial)
        rw [← htail, ht] at htaken
        cases htaken
      settled := fun x f hf y => by
        rw [honly x (by rw [hf]; trivial), hp.fst] at hf
        cases hf
      place := fun x hx => by
        rw [honly x hx, hp.fst]
        refine ⟨?_, nofun, nofun⟩
        rw [htail]
        refine hq.congr (fun a _ => ?_) fun b hb => ?_
        · exact hp.all (P := fun a d => d.next = (s.caller a).next) rfl hnext
            (fun _ _ _ => rfl) a
        · have hbk : b ≠ k := by
            rintro rfl
            exact hkw hb
          have hbn : b ≠ n := by
            rintro rfl
            exact hnw hb
          unfold Still
          rw [hp.rest b hbk hbn]
          exact ⟨rfl, .inl rfl⟩
      refs :=
        { asleep := fun k' x hx => by
            rcases hold k' x hx with ⟨_, rfl⟩ | ⟨hx', _, heq⟩
            · rw [hp.snd]
              exact ⟨hpcd, hran⟩
            · rw [heq]
              exact h.refs.asleep k' x hx'
          wake := fun k' x hx => by
            rcases hold k' x hx with ⟨rfl, rfl⟩ | ⟨hx', heq', heq⟩
            · rw [hp.snd, hp.fst]
              change _ ↔ wake = some x
              rw [hwake]
              by_cases hkept : d.kept = .nothing
              · rw [if_pos hkept]
                exact iff_of_true hkept rfl
              · rw [if_neg hkept]
                exact iff_of_false hkept nofun
            · rw [heq, heq']
              exact h.refs.wake k' x hx'
          inj := fun k₁ k₂ x h₁ h₂ => by
            -- Nobody was to let go the caller whose turn has come.
            have hnone : ∀ k', (s.caller k').pc.ref k' ≠ some n := fun k' hx => by
              rw [(h.refs.asleep k' n hx).2] at hrann
              cases hrann
            rcases hold k₁ x h₁ with ⟨rfl, rfl⟩ | ⟨hx₁, _, _⟩
            · rcases hold k₂ x h₂ with ⟨rfl, _⟩ | ⟨hx₂, _, _⟩
              · rfl
              · exact absurd hx₂ (hnone k₂)
            · rcases hold k₂ x h₂ with ⟨rfl, rfl⟩ | ⟨hx₂, _, _⟩
              · exact absurd hx₁ (hnone k₁)
              · exact h.refs.inj k₁ k₂ x hx₁ hx₂
          covered := by
            refine hp.all (P := fun x d => d.pc = .asleep → d.ran = true → d.kept = .nothing →
              ∃ k', (s'.caller k').pc.ref k' = some x) nofun (fun _ _ _ => ⟨k, ?_⟩)
              fun x _ _ hxpc hxran hxkept => ?_
            · rw [hp.fst]
              exact hrefk
            · rcases h.refs.covered x hxpc hxran hxkept with ⟨k', hk'⟩
              refine ⟨k', ?_⟩
              rw [hp.rest]
              · exact hk'
              · rintro rfl
                rw [hpc] at hk'
                cases hk'
              · rintro rfl
                rw [hpcn] at hk'
                cases hk' } }

end

end Combining

end Delegate

end Cmpth

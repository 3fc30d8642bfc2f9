import Cmpth.Core.Update
import Cmpth.Waker.BlockOn

/-!
# Nested Calls of `block_on`

The continuation of a ULT is in one spot at a time, whatever its calls of
`block_on` and their wakers do: it is running, parked in a word, with the waker
that has claimed it, or in one queue. A wake that takes effect during a poll is
in the word until the ULT parks.

Both hold for any poller, as long as no word is lost. One is lost where a call
idles a word that another call has, and where a wake of that other call then
finds it idle.

## Main definitions

* `Spot`: Where the continuation of the ULT is.
* `owner`: The call that has a word, of those in progress.
* `Inv`: What every step keeps.
* `Kept`: The steps that lose no word.

## Theorems

* `owner_cons`, `home_of_owner`, `owner_of_head`, `owner_tail`: The call that has a word.
* `Inv.is_running`, `Inv.is_suspended`, `Inv.unparked`, `Inv.notified`,
  `unparked_setWord`: What the invariant says of the ULT and of the words.
* `inv_setWaker`, `inv_setWord`, `inv_setUlt`, `inv_wokenBy`: Local steps.
* `inv_enter`, `inv_poll`, `inv_store`, `inv_leave`, `inv_resume`, `inv_park`,
  `inv_cancel`, `inv_decidePark`: The invariant, by step of the ULT.
* `inv_notify`, `inv_claim`, `inv_wakeExchange`, `inv_read`, `inv_push`: By step of a
  waker.
* `inv_init`, `inv_next`: Every step keeps it, if it loses no word.
* `not_lost`: Under it no ULT is parked that was woken.
* `lost_of_deciding`, `lost_of_blind`: A wake that the word does not keep leads to one.
-/

namespace Cmpth

namespace Waker

namespace BlockOn

variable {C D K Q : Type*}

/-- Where the continuation of the ULT is. -/
inductive Spot (K Q : Type*) where
  | running
  | parked
  | waker (k : K)
  | queue (q : Q)

/-- The innermost of the calls whose word is at `d`. -/
def owner [DecidableEq D] (P : Poller C D) (d : D) (stack : List C) : Option C :=
  stack.find? fun c => decide (P.home c = d)

/-- `wait` has stored the continuation. -/
def UltPc.Stored : UltPc → Prop
  | .deciding | .decideCas _ | .suspended => True
  | .ready | .polling | .leaving | .storing => False

/-- A wake that the word does not keep is not seen before the ULT parks. -/
def UltPc.Blind : UltPc → Prop
  | .polling | .storing | .deciding | .decideCas _ => True
  | .ready | .leaving | .suspended => False

instance (pc : UltPc) : Decidable pc.Blind :=
  match pc with
  | .polling | .storing | .deciding | .decideCas _ => isTrue trivial
  | .ready | .leaving | .suspended => isFalse (fun h => h)

/-- What every step keeps: the continuation is at `p`. -/
structure Inv [DecidableEq D] (P : Poller C D) (s : State C D K Q) (p : Spot K Q) : Prop where
  nodup : s.stack.Nodup
  started : ∀ c ∈ s.stack, s.started c = true
  known : ∀ k c, (s.waker k).call = some c → s.started c = true
  stack : s.ult ≠ .polling → s.stack ≠ []
  running : s.ult ≠ .suspended ↔ p = .running
  queue : ∀ q, (p = .queue q → s.queue q = 1) ∧ (p ≠ .queue q → s.queue q = 0)
  waker : ∀ k, (s.waker k).Claims ↔ p = .waker k
  home : ∀ k c, (s.waker k).Claims → (s.waker k).call = some c →
    ∃ t, s.stack.head? = some t ∧ P.home c = P.home t
  parked : ∀ d, decode (s.word d) = .parked ↔
    p = .parked ∧ ∃ t, s.stack.head? = some t ∧ P.home t = d
  /-- A wake during the poll is still in the word, if no other call has it. -/
  woken : ∀ d c, owner P d s.stack = some c → s.woken c = true →
    decode (s.word d) = .notified ∨ s.stack.head? = some c ∧ ¬ s.ult.Blind ∧ p ≠ .parked
  pushes : s.pushes ≤ 1
  pushed : ∀ q, p = .queue q → s.pushes = 1
  unpushed : (p = .parked ∨ ∃ k, p = .waker k) → s.pushes = 0
  cont : P.cell = true → s.ult.Stored → ∀ t, s.stack.head? = some t →
    s.cont (P.home t) = some s.parks
  token : ∀ k c wait, s.waker k = .pushing c wait → wait = some s.parks

section

variable [DecidableEq D] {P : Poller C D} {s : State C D K Q} {p : Spot K Q}

theorem owner_cons (d : D) (c : C) (l : List C) :
    owner P d (c :: l) = if P.home c = d then some c else owner P d l := by
  unfold owner
  rw [List.find?_cons]
  by_cases h : P.home c = d <;> simp [h]

theorem home_of_owner {d : D} {c : C} {l : List C} (h : owner P d l = some c) :
    c ∈ l ∧ P.home c = d := by
  unfold owner at h
  exact ⟨List.mem_of_find?_eq_some h, by simpa using List.find?_some h⟩

theorem owner_of_head {d : D} {c : C} {l : List C} (hl : l.head? = some c) (hd : P.home c = d) :
    owner P d l = some c := by
  cases l with
  | nil => cases hl
  | cons a l =>
      cases hl
      rw [owner_cons, if_pos hd]

/-- The call that has a word is the innermost one, or has the word below it. -/
theorem owner_tail {d : D} {c c' : C} {l : List C} (h : owner P d (c :: l) = some c') :
    c' = c ∧ P.home c = d ∨ P.home c ≠ d ∧ owner P d l = some c' := by
  rw [owner_cons] at h
  by_cases hd : P.home c = d
  · rw [if_pos hd] at h
    cases h
    exact .inl ⟨rfl, hd⟩
  · rw [if_neg hd] at h
    exact .inr ⟨hd, h⟩

theorem Inv.is_running (h : Inv P s p) (hult : s.ult ≠ .suspended) : p = .running :=
  h.running.mp hult

theorem Inv.is_suspended (h : Inv P s p) (hp : p ≠ .running) : s.ult = .suspended := by
  by_contra hult
  exact hp (h.running.mp hult)

theorem Inv.unparked (h : Inv P s p) (hp : p ≠ .parked) (d : D) :
    decode (s.word d) ≠ .parked :=
  fun hd => hp ((h.parked d).mp hd).1

/-- While the ULT is blind to wakes, they are in the words. -/
theorem Inv.notified (h : Inv P s p) (hult : s.ult.Blind) {d : D} {c : C}
    (hc : owner P d s.stack = some c) (hwoken : s.woken c = true) :
    decode (s.word d) = .notified := by
  rcases h.woken d c hc hwoken with hnot | ⟨-, hblind, -⟩
  · exact hnot
  · exact absurd hult hblind

/-- No word says `PARKED` after one has changed. -/
theorem unparked_setWord {word : D → Word} {d : D} {w : Word} {l : List C}
    (hold : ∀ e, e ≠ d → decode (word e) ≠ .parked) (hw : decode w ≠ .parked)
    (hp : p ≠ .parked) (e : D) :
    decode (Function.update word d w e) = .parked ↔
      p = .parked ∧ ∃ t, l.head? = some t ∧ P.home t = e :=
  iff_of_false (forall_update_of_ne (P := fun _ w => decode w ≠ .parked) hold hw e)
    fun he => hp he.1

theorem inv_init (hi : init s) : Inv P s .running := by
  rcases hi with ⟨hstack, hstarted, hult, hwaker, hqueue, hpushes, hword⟩
  have hidle : decode idle = .idle := by decide
  constructor
  all_goals simp [hstack, hult, hwaker, hqueue, hpushes, hword, hidle, WakerPc.call,
    WakerPc.Claims, UltPc.Stored, owner]

variable [DecidableEq K]

/-- A step of a waker that neither claims the ULT nor gives it up. -/
theorem inv_setWaker (h : Inv P s p) {k : K} {pc : WakerPc C} (hold : ¬ (s.waker k).Claims)
    (hnew : ¬ pc.Claims) (hcall : ∀ c, pc.call = some c → s.started c = true) :
    Inv P (s.setWaker k pc) p := by
  have hk : p ≠ .waker k := fun hp => hold ((h.waker k).mpr hp)
  refine { h with known := ?_, waker := ?_, home := ?_, token := ?_ }
  · exact forall_update (P := fun _ pc => ∀ c, WakerPc.call pc = some c → s.started c = true)
      h.known hcall
  · exact holder_update (P := WakerPc.Claims) (A := (p = .waker ·)) (B := (p = .waker ·))
      h.waker (iff_of_false hnew hk) fun _ _ => Iff.rfl
  -- A waker that has not claimed the ULT has nothing to say of its wait.
  · exact forall_update (P := fun _ pc => ∀ c, WakerPc.Claims pc → pc.call = some c →
      ∃ t, s.stack.head? = some t ∧ P.home c = P.home t) h.home fun _ hc => absurd hc hnew
  · refine forall_update (P := fun _ pc => ∀ c wait, pc = WakerPc.pushing c wait →
      wait = some s.parks) h.token ?_
    rintro c wait rfl
    exact absurd trivial hnew

omit [DecidableEq K] in
/-- A word changes that stands for the same state. -/
theorem inv_setWord (h : Inv P s p) {d : D} {w : Word} (hw : decode w = decode (s.word d)) :
    Inv P (s.setWord d w) p := by
  have hword : ∀ e, decode (Function.update s.word d w e) = decode (s.word e) :=
    forall_update (P := fun e w => decode w = decode (s.word e)) (fun _ => rfl) hw
  refine { h with parked := fun e => ?_, woken := fun e c hc hwoken => ?_ }
  · exact (hword e).symm ▸ h.parked e
  · exact (hword e).symm ▸ h.woken e c hc hwoken

omit [DecidableEq K] in
/-- A wake that leaves the word as it is takes effect. -/
theorem inv_wokenBy [DecidableEq C] (h : Inv P s p) {c : C}
    (hc : owner P (P.home c) s.stack = some c → decode (s.word (P.home c)) = .notified ∨
      s.stack.head? = some c ∧ ¬ s.ult.Blind ∧ p ≠ .parked) :
    Inv P (s.wokenBy c) p := by
  refine { h with woken := fun d c' hc' hwoken => ?_ }
  by_cases he : c' = c
  · subst he
    obtain rfl := (home_of_owner hc').2
    exact hc hc'
  · exact h.woken d c' hc' ((Function.update_of_ne he ..).symm.trans hwoken)

omit [DecidableEq K] in
/-- A call begins. Its word, which may be that of other calls, is stored to. -/
theorem inv_enter [DecidableEq C] (h : Inv P s p) {c : C} (hult : s.ult = .polling)
    (hc : s.started c = false) :
    Inv P
      { s.setWord (P.home c) polling with
        stack := c :: s.stack
        started := Function.update s.started c true
        ult := .ready
        woken := Function.update s.woken c false } p := by
  -- A call that has not been started is not in progress.
  have hnew : c ∉ s.stack := fun hm => by
    rw [h.started c hm] at hc
    cases hc
  have hp : p = .running := h.is_running (by rw [hult]; nofun)
  subst hp
  have hpoll : decode polling = .polling := by decide
  have hstarted : ∀ c', s.started c' = true → Function.update s.started c true c' = true :=
    forall_update (P := fun c' b => s.started c' = true → b = true) (fun _ hs => hs) fun _ => rfl
  refine { h with
    nodup := List.nodup_cons.mpr ⟨hnew, h.nodup⟩, started := ?_, known := ?_,
    stack := fun _ => List.cons_ne_nil c s.stack, running := iff_of_true nofun rfl,
    home := ?_, parked := ?_, woken := ?_, cont := fun _ hs => hs.elim }
  · intro c' hc'
    rcases List.mem_cons.mp hc' with rfl | hc'
    · exact Function.update_self ..
    · exact hstarted c' (h.started c' hc')
  · exact fun k c' hk => hstarted c' (h.known k c' hk)
  · exact fun k c' hk _ => nomatch (h.waker k).mp hk
  · exact unparked_setWord (fun e _ => h.unparked nofun e) (by rw [hpoll]; nofun) nofun
  · -- The new call has not been woken, and a call below it only if its word is another.
    intro d c' hc' hwoken
    have hne : c' ≠ c := by
      rintro rfl
      cases (Function.update_self (f := s.woken) ..).symm.trans hwoken
    rcases owner_tail hc' with ⟨rfl, -⟩ | ⟨hd, hc'⟩
    · exact absurd rfl hne
    · have hnot := h.notified (by rw [hult]; trivial) hc'
        ((Function.update_of_ne hne ..).symm.trans hwoken)
      exact .inl ((congrArg decode (Function.update_of_ne (Ne.symm hd) ..)).trans hnot)

omit [DecidableEq K] in
/-- The future is polled. -/
theorem inv_poll [DecidableEq C] (h : Inv P s p) {c : C} {l : List C} (hult : s.ult = .ready)
    (hstack : s.stack = c :: l) :
    Inv P { s with ult := .polling, woken := Function.update s.woken c false } p := by
  have hp : p = .running := h.is_running (by rw [hult]; nofun)
  subst hp
  refine { h with
    stack := fun hn => absurd rfl hn, running := iff_of_true nofun rfl, woken := ?_,
    cont := fun _ hs => hs.elim }
  -- The call that is polled may have been woken before; the others are not on top.
  intro d c' hc' hwoken
  have hne : c' ≠ c := by
    rintro rfl
    cases (Function.update_self (f := s.woken) ..).symm.trans hwoken
  rcases h.woken d c' hc' ((Function.update_of_ne hne ..).symm.trans hwoken) with hnot | ⟨htop, -⟩
  · exact .inl hnot
  · rw [hstack] at htop
    cases htop
    exact absurd rfl hne

omit [DecidableEq K] in
/-- The ULT goes on in its innermost call. -/
theorem inv_setUlt (h : Inv P s p) {ult : UltPc} {parks : Nat} (hne : s.stack ≠ [])
    (hold : s.ult.Blind) (hnew : ult ≠ .suspended)
    (hstored : ult.Stored → s.ult.Stored ∧ parks = s.parks ∨ P.cell = false) :
    Inv P { s with ult := ult, parks := parks } p := by
  have hold' : s.ult ≠ .suspended := by
    intro hu
    rw [hu] at hold
    exact hold
  -- It runs before and after.
  have hp : p = .running := h.is_running hold'
  subst hp
  refine { h with
    stack := fun _ => hne, running := iff_of_true hnew rfl,
    woken := fun d c hc hwoken => .inl (h.notified hold hc hwoken), cont := ?_, token := ?_ }
  · intro hcell hs t ht
    rcases hstored hs with ⟨hold, rfl⟩ | hno
    · exact h.cont hcell hold t ht
    · rw [hno] at hcell
      cases hcell
  · intro k c wait hk
    have hclaims : (s.waker k).Claims := by
      rw [show s.waker k = _ from hk]
      trivial
    nomatch (h.waker k).mp hclaims

omit [DecidableEq K] in
/-- `wait` stores the continuation. -/
theorem inv_store (h : Inv P s p) {c : C} {l : List C} (hult : s.ult = .storing)
    (hstack : s.stack = c :: l) :
    Inv P
      { s with
        cont := Function.update s.cont (P.home c) (some s.parks)
        ult := .deciding } p := by
  have hp : p = .running := h.is_running (by rw [hult]; nofun)
  subst hp
  have hne : s.stack ≠ [] := by
    rw [hstack]
    exact List.cons_ne_nil c l
  refine { h with
    stack := fun _ => hne, running := iff_of_true nofun rfl, woken := ?_, cont := ?_ }
  · exact fun d c' hc' hwoken => .inl (h.notified (by rw [hult]; trivial) hc' hwoken)
  · intro _ _ t ht
    rw [show s.stack = _ from hstack] at ht
    cases ht
    exact Function.update_self ..

omit [DecidableEq K] in
/-- A call ends and idles its word, while no wake is kept there for the call
    that has the word next. -/
theorem inv_leave (h : Inv P s p) {c : C} {l : List C} (hult : s.ult = .leaving)
    (hstack : s.stack = c :: l)
    (hkept : ∀ c', owner P (P.home c) l = some c' → s.woken c' = false) :
    Inv P { s.setWord (P.home c) idle with stack := l, ult := .polling } p := by
  have hp : p = .running := h.is_running (by rw [hult]; nofun)
  subst hp
  have hidle : decode idle = .idle := by decide
  have hnodup : c ∉ l ∧ l.Nodup := List.nodup_cons.mp (hstack ▸ h.nodup)
  refine { h with
    nodup := hnodup.2, started := ?_, stack := fun hn => absurd rfl hn,
    running := iff_of_true nofun rfl, home := ?_, parked := ?_, woken := ?_,
    cont := fun _ hs => hs.elim }
  · exact fun c' hc' => h.started c' (hstack ▸ List.mem_cons_of_mem c hc')
  · exact fun k c' hk _ => nomatch (h.waker k).mp hk
  · exact unparked_setWord (fun e _ => h.unparked nofun e) (by rw [hidle]; nofun) nofun
  · intro d c' hc' hwoken
    by_cases hd : d = P.home c
    · -- The word idles, but its next owner has not been woken.
      rw [hd] at hc'
      cases (hkept c' hc').symm.trans hwoken
    · have howner : owner P d s.stack = some c' := by
        rw [hstack, owner_cons, if_neg (Ne.symm hd)]
        exact hc'
      rcases h.woken d c' howner hwoken with hnot | ⟨htop, -⟩
      · exact .inl ((congrArg decode (Function.update_of_ne hd ..)).trans hnot)
      · rw [hstack] at htop
        cases htop
        exact absurd (home_of_owner hc').1 hnodup.1

omit [DecidableEq K] in
/-- A worker resumes the ULT. -/
theorem inv_resume [DecidableEq Q] (h : Inv P s p) {q : Q} (hq : 0 < s.queue q) :
    Inv P
      { s with
        queue := Function.update s.queue q (s.queue q - 1)
        ult := .ready } .running := by
  have hp : p = .queue q := by
    by_contra hne
    have hzero := (h.queue q).2 hne
    omega
  subst hp
  -- It was suspended, so that the token in the queue is the one there is.
  have hsusp := h.is_suspended nofun
  refine { h with
    stack := fun _ => h.stack (by rw [hsusp]; nofun), running := iff_of_true nofun rfl,
    queue := ?_, waker := fun k => (h.waker k).trans (iff_of_false nofun nofun),
    parked := fun d => (h.parked d).trans (iff_of_false nofun nofun), woken := ?_,
    pushed := nofun, unpushed := nofun, cont := fun _ hs => hs.elim }
  · exact count_pop (A := fun r => (.queue q : Spot K Q) = .queue r)
      (B := fun r => (.running : Spot K Q) = .queue r) h.queue (fun r => by rw [Spot.queue.injEq])
      nofun
  · intro d c hc hwoken
    exact (h.woken d c hc hwoken).imp_right fun hr => ⟨hr.1, nofun, nofun⟩

omit [DecidableEq K] in
/-- `decide_park` finds no wake and parks the ULT. -/
theorem inv_park (h : Inv P s p) {c : C} {l : List C} {w : Word} (hstack : s.stack = c :: l)
    (hult : ∃ refs, s.ult = .decideCas refs) (hold : decode (s.word (P.home c)) ≠ .notified)
    (hw : decode w = .parked) :
    Inv P { s.setWord (P.home c) w with ult := .suspended, pushes := 0 } .parked := by
  rcases hult with ⟨refs, hult⟩
  have hp : p = .running := h.is_running (by rw [hult]; nofun)
  subst hp
  have hne : s.stack ≠ [] := by
    rw [hstack]
    exact List.cons_ne_nil c l
  refine { h with
    stack := fun _ => hne, running := iff_of_false (fun hn => hn rfl) nofun,
    queue := fun q => ⟨nofun, fun _ => (h.queue q).2 nofun⟩,
    waker := fun k => (h.waker k).trans (iff_of_false nofun nofun), parked := ?_, woken := ?_,
    pushes := Nat.zero_le 1, pushed := nofun, unpushed := fun _ => rfl,
    cont := fun hcell _ => h.cont hcell (by rw [hult]; trivial) }
  · -- The word of the innermost call is the one that says `PARKED`.
    refine forall_update_of_ne (P := fun d w => decode w = .parked ↔
      (.parked : Spot K Q) = .parked ∧ ∃ t, s.stack.head? = some t ∧ P.home t = d)
      (fun d hd => ?_) ?_
    · refine iff_of_false (h.unparked nofun d) ?_
      rintro ⟨-, t, ht, rfl⟩
      rw [hstack] at ht
      cases ht
      exact hd rfl
    · exact iff_of_true hw ⟨rfl, c, by rw [hstack]; rfl, rfl⟩
  · intro d c' hc' hwoken
    have hnot := h.notified (by rw [hult]; trivial) hc' hwoken
    have hd : d ≠ P.home c := by
      rintro rfl
      exact hold hnot
    exact .inl ((congrArg decode (Function.update_of_ne hd ..)).trans hnot)

omit [DecidableEq K] in
/-- `decide_park` finds a wake and has the future polled again. -/
theorem inv_cancel (h : Inv P s p) {c : C} {l : List C} {w : Word} (hstack : s.stack = c :: l)
    (hult : ∃ refs, s.ult = .decideCas refs) (hw : decode w = .polling) :
    Inv P { s.setWord (P.home c) w with ult := .ready } p := by
  rcases hult with ⟨refs, hult⟩
  have hp : p = .running := h.is_running (by rw [hult]; nofun)
  subst hp
  have hne : s.stack ≠ [] := by
    rw [hstack]
    exact List.cons_ne_nil c l
  refine { h with
    stack := fun _ => hne, running := iff_of_true nofun rfl, parked := ?_, woken := ?_,
    cont := fun _ hs => hs.elim }
  · exact unparked_setWord (fun e _ => h.unparked nofun e) (by rw [hw]; nofun) nofun
  · -- The wake of the innermost call is answered by the poll that comes next.
    intro d c' hc' hwoken
    have htop : s.stack.head? = some c := by
      rw [hstack]
      rfl
    have htail : owner P d (c :: l) = some c' := hstack ▸ hc'
    rcases owner_tail htail with ⟨rfl, -⟩ | ⟨hd, -⟩
    · exact .inr ⟨htop, fun hb => hb, nofun⟩
    · have hnot := h.notified (by rw [hult]; trivial) hc' hwoken
      exact .inl ((congrArg decode (Function.update_of_ne (Ne.symm hd) ..)).trans hnot)

/-- A wake is left in the word. -/
theorem inv_notify [DecidableEq C] (h : Inv P s p) {k : K} {c : C} {w : Word}
    (hk : ¬ (s.waker k).Claims) (hc : s.started c = true)
    (hold : decode (s.word (P.home c)) = .polling) (hw : decode w = .notified) :
    Inv P (((s.setWord (P.home c) w).setWaker k (.held c)).wokenBy c) p := by
  have hp : p ≠ .parked ∨ ¬ ∃ t, s.stack.head? = some t ∧ P.home t = P.home c := by
    by_contra hn
    rw [not_or, not_not, not_not] at hn
    cases hold.symm.trans ((h.parked (P.home c)).mpr hn)
  -- First the word, then the waker that lets go of it.
  have hset : Inv P (s.setWord (P.home c) w) p := by
    refine { h with parked := ?_, woken := ?_ }
    · refine forall_update (P := fun d w => decode w = .parked ↔ p = .parked ∧
        ∃ t, s.stack.head? = some t ∧ P.home t = d) h.parked (iff_of_false (by rw [hw]; nofun) ?_)
      exact fun hn => hp.elim (fun hp => hp hn.1) fun hp => hp hn.2
    · intro d c' hc' hwoken
      by_cases hd : d = P.home c
      · subst hd
        exact .inl ((congrArg decode (Function.update_self (f := s.word) ..)).trans hw)
      · rw [show (s.setWord (P.home c) w).word d = s.word d from Function.update_of_ne hd ..]
        exact h.woken d c' hc' hwoken
  refine inv_wokenBy (inv_setWaker hset hk (by nofun) ?_) ?_
  · intro c' hc'
    cases hc'
    exact hc
  · intro _
    refine Or.inl ?_
    change decode (Function.update s.word (P.home c) w (P.home c)) = .notified
    rw [Function.update_self]
    exact hw

/-- A wake claims the ULT. -/
theorem inv_claim [DecidableEq C] (h : Inv P s p) {k : K} {c : C} {w : Word}
    (hc : s.started c = true) (hold : decode (s.word (P.home c)) = .parked)
    (hw : decode w = .polling) :
    p = .parked ∧ (∃ t, s.stack.head? = some t ∧ P.home t = P.home c) ∧
      Inv P (((s.setWord (P.home c) w).setWaker k (.claimed c)).wokenBy c) (.waker k) := by
  have hpt := (h.parked (P.home c)).mp hold
  refine ⟨hpt.1, hpt.2, ?_⟩
  -- The parked ULT is on the stack of its home, and it is the waker's from now on.
  obtain ⟨rfl, t, ht, htc⟩ := hpt
  have hsusp := h.is_suspended nofun
  refine { h with
    known := ?_, running := h.running.trans (iff_of_false nofun nofun),
    queue := fun q => ⟨nofun, fun _ => (h.queue q).2 nofun⟩, waker := ?_, home := ?_,
    parked := ?_, woken := ?_, pushed := nofun, unpushed := fun _ => h.unpushed (.inl rfl),
    token := ?_ }
  · refine forall_update (P := fun _ pc => ∀ c, WakerPc.call pc = some c → s.started c = true)
      h.known ?_
    rintro c' ⟨⟩
    exact hc
  · exact holder_update (P := WakerPc.Claims) (A := fun i => (.parked : Spot K Q) = .waker i)
      (B := fun i => (.waker k : Spot K Q) = .waker i) h.waker (iff_of_true trivial rfl)
      fun i hi => iff_of_false nofun fun he => hi (Spot.waker.inj he).symm
  · refine forall_update (P := fun _ pc => ∀ c, WakerPc.Claims pc → pc.call = some c →
      ∃ t, s.stack.head? = some t ∧ P.home c = P.home t) h.home ?_
    rintro c' - ⟨⟩
    exact ⟨t, ht, htc.symm⟩
  · -- Only the word of the call that waits said `PARKED`.
    refine unparked_setWord (fun e he hparked => ?_) (by rw [hw]; nofun) nofun
    obtain ⟨-, t', ht', rfl⟩ := (h.parked e).mp hparked
    cases ht.symm.trans ht'
    exact he htc
  · intro d c' hc' hwoken
    by_cases hd : d = P.home c
    · -- Its wakes are answered when the ULT runs again.
      cases (owner_of_head ht (htc.trans hd.symm)).symm.trans hc'
      refine .inr ⟨ht, ?_, nofun⟩
      rw [show (((s.setWord (P.home c) w).setWaker k (.claimed c)).wokenBy c).ult = s.ult from rfl,
        hsusp]
      exact fun hb => hb
    · have hne : c' ≠ c := by
        rintro rfl
        exact hd (home_of_owner hc').2.symm
      rcases h.woken d c' hc' ((Function.update_of_ne hne ..).symm.trans hwoken) with hnot | hr
      · exact .inl ((congrArg decode (Function.update_of_ne hd ..)).trans hnot)
      · exact absurd rfl hr.2.2
  · exact forall_update (P := fun _ pc => ∀ c wait, pc = WakerPc.pushing c wait →
      wait = some s.parks) h.token nofun

/-- The waker that has claimed the ULT finds the continuation of its wait. -/
theorem inv_read (h : Inv P s p) {k : K} {c : C} (hk : s.waker k = .claimed c) :
    (if P.cell = true then s.cont (P.home c) else some s.parks) = some s.parks ∧
      Inv P
        (s.setWaker k
          (.pushing c (if P.cell = true then s.cont (P.home c) else some s.parks))) p := by
  have hclaims : (s.waker k).Claims := by rw [hk]; trivial
  have hp : p = .waker k := (h.waker k).mp hclaims
  have hsusp := h.is_suspended (by rw [hp]; nofun)
  rcases h.home k c hclaims (by rw [hk]; rfl) with ⟨t, ht, hct⟩
  -- Either there is one continuation, or the word's cell holds that of this wait.
  have hcont : (if P.cell = true then s.cont (P.home c) else some s.parks) = some s.parks := by
    by_cases hcell : P.cell = true
    · rw [if_pos hcell, hct]
      exact h.cont hcell (by rw [hsusp]; trivial) t ht
    · rw [if_neg hcell]
  refine ⟨hcont, ?_⟩
  rw [hcont]
  refine { h with known := ?_, waker := ?_, home := ?_, token := ?_ }
  · refine forall_update (P := fun _ pc => ∀ c, WakerPc.call pc = some c → s.started c = true)
      h.known ?_
    rintro c' ⟨⟩
    exact h.known k c (by rw [hk]; rfl)
  · exact holder_update (P := WakerPc.Claims) (A := (p = .waker ·)) (B := (p = .waker ·))
      h.waker (iff_of_true trivial hp) fun _ _ => Iff.rfl
  · refine forall_update (P := fun _ pc => ∀ c, WakerPc.Claims pc → pc.call = some c →
      ∃ t, s.stack.head? = some t ∧ P.home c = P.home t) h.home ?_
    rintro c' - ⟨⟩
    exact ⟨t, ht, hct⟩
  · refine forall_update (P := fun _ pc => ∀ c wait, pc = WakerPc.pushing c wait →
      wait = some s.parks) h.token ?_
    rintro c' wait ⟨⟩
    rfl

/-- The waker that has claimed the ULT pushes it. -/
theorem inv_push [DecidableEq Q] (h : Inv P s p) {k : K} {c : C} {wait : Option Nat} {q : Q}
    (hk : s.waker k = .pushing c wait) :
    Inv P
      { s.setWaker k (.held c) with
        queue := Function.update s.queue q (s.queue q + 1)
        pushes := s.pushes + 1 } (.queue q) := by
  have hclaims : (s.waker k).Claims := by rw [hk]; trivial
  have hp : p = .waker k := (h.waker k).mp hclaims
  -- The ULT has parked once more than it was pushed.
  have hone : s.pushes + 1 = 1 := by rw [h.unpushed (.inr ⟨k, hp⟩)]
  subst hp
  refine { h with
    known := ?_, running := h.running.trans (iff_of_false nofun nofun), queue := ?_, waker := ?_,
    home := ?_, parked := fun d => (h.parked d).trans (iff_of_false nofun nofun), woken := ?_,
    pushes := Nat.le_of_eq hone, pushed := fun _ _ => hone, unpushed := nofun, token := ?_ }
  · refine forall_update (P := fun _ pc => ∀ c, WakerPc.call pc = some c → s.started c = true)
      h.known ?_
    rintro c' ⟨⟩
    exact h.known k c (by rw [hk]; rfl)
  · exact count_push (A := fun r => (.waker k : Spot K Q) = .queue r)
      (B := fun r => (.queue q : Spot K Q) = .queue r) h.queue nofun
      fun r => by rw [Spot.queue.injEq]
  · exact holder_update (P := WakerPc.Claims) (A := fun i => (.waker k : Spot K Q) = .waker i)
      (B := fun i => (.queue q : Spot K Q) = .waker i) h.waker (iff_of_false nofun nofun)
      fun i hi => iff_of_false (fun he => hi (Spot.waker.inj he).symm) nofun
  · exact forall_update (P := fun _ pc => ∀ c, WakerPc.Claims pc → pc.call = some c →
      ∃ t, s.stack.head? = some t ∧ P.home c = P.home t) h.home nofun
  · exact fun d c' hc' hwoken =>
      (h.woken d c' hc' hwoken).imp_right fun hr => ⟨hr.1, hr.2.1, nofun⟩
  · exact forall_update (P := fun _ pc => ∀ c wait, pc = WakerPc.pushing c wait →
      wait = some s.parks) h.token nofun

variable [DecidableEq C] [DecidableEq Q] {a : Action C K Q}

/-- Where the words may be lost: at the end of a call, whose word idles under
    the call that has it next, and at a wake of a call whose word does. -/
def Kept (P : Poller C D) (s : State C D K Q) : Action C K Q → Prop
  | .leave =>
      ∀ c l c', s.stack = c :: l → owner P (P.home c) l = some c' → s.woken c' = false
  | .wakeLoad k =>
      ∀ c, s.waker k = .waking c → owner P (P.home c) s.stack = some c →
        decode (s.word (P.home c)) = .idle → s.stack.head? = some c ∧ ¬ s.ult.Blind
  | _ => True

omit [DecidableEq K] [DecidableEq C] [DecidableEq Q] in
/-- `decide_park`. -/
theorem inv_decidePark (h : Inv P s p) {c : C} {l : List C} {refs : Word}
    (hstack : s.stack = c :: l) (hult : s.ult = .decideCas refs) :
    ∃ p', Inv P (s.decidePark (P.home c) refs) p' := by
  unfold State.decidePark
  by_cases heq : s.word (P.home c) = refs
  · rw [if_pos heq]
    rcases decode_parkTry refs with ⟨hold, hnew, hout⟩ | ⟨hold, hnew, hout⟩
    · rw [if_neg (by rw [hout]; nofun)]
      exact ⟨p, inv_cancel h hstack ⟨refs, hult⟩ hnew⟩
    · rw [if_pos hout]
      exact ⟨.parked, inv_park h hstack ⟨refs, hult⟩ (heq ▸ hold) hnew⟩
  · rw [if_neg heq]
    refine ⟨p, inv_setUlt h (by rw [hstack]; nofun) (by rw [hult]; trivial) (by nofun) ?_⟩
    intro _
    exact Or.inl ⟨by rw [hult]; trivial, rfl⟩

omit [DecidableEq Q] in
/-- The exchange of `try_wake_state`. -/
theorem inv_wakeExchange (h : Inv P s p) {k : K} {c : C} {refs : Word}
    (hk : s.waker k = .wakeCas c refs) : ∃ p', Inv P (s.wakeExchange P k c refs) p' := by
  have hnot : ¬ (s.waker k).Claims := by rw [hk]; nofun
  have hc : s.started c = true := h.known k c (by rw [hk]; rfl)
  have hcall : ∀ pc : WakerPc C, pc.call = some c → ∀ c', pc.call = some c' →
      s.started c' = true := by
    intro pc hpc c' hc'
    rw [hpc] at hc'
    cases hc'
    exact hc
  unfold State.wakeExchange
  by_cases heq : s.word (P.home c) = refs
  · rw [if_pos heq]
    -- A wake during the poll, one of a parked thread, and one that comes to nothing.
    rcases decode_wakeTry refs with ⟨hold, new, hout, hnew⟩ | ⟨hold, new, hout, hnew⟩ | ⟨-, hout⟩
    · rw [hout]
      exact ⟨p, inv_notify h hnot hc (heq ▸ hold) hnew⟩
    · rw [hout]
      exact ⟨.waker k, (inv_claim h hc (heq ▸ hold) hnew).2.2⟩
    · rw [hout]
      exact ⟨p, h⟩
  · rw [if_neg heq]
    exact ⟨p, inv_setWaker h hnot (by nofun) (hcall _ rfl)⟩

/-- Every step keeps the invariant, if it loses no word. -/
theorem inv_next (h : Inv P s p) (hg : guard s a) (hkept : Kept P s a) :
    ∃ p', Inv P (next P s a) p' := by
  -- A ULT that is not polling is inside a call.
  have hne : s.ult ≠ .polling → ∃ c l, s.stack = c :: l := fun hu =>
    List.exists_cons_of_ne_nil (h.stack hu)
  have hcall : ∀ {k c} {pc pc' : WakerPc C}, s.waker k = pc → pc.call = some c →
      pc'.call = some c → ∀ c', pc'.call = some c' → s.started c' = true := by
    intro k c pc pc' hk hpc hpc' c' hc'
    rw [hpc'] at hc'
    cases hc'
    exact h.known k c (by rw [hk]; exact hpc)
  -- The ULT's steps, and then the wakers'.
  cases a with
  | enter c => exact ⟨p, inv_enter h hg.1 hg.2⟩
  | poll =>
      have hult : s.ult = .ready := hg
      rcases hne (by rw [hult]; nofun) with ⟨c, l, hstack⟩
      simp only [next, hstack]
      rw [← hstack]
      exact ⟨p, inv_poll h hult hstack⟩
  | pending =>
      refine ⟨p, inv_setUlt h hg.2 (by rw [hg.1]; trivial) ?_ ?_⟩
      · by_cases hcell : P.cell = true
        · rw [if_pos hcell]
          nofun
        · rw [if_neg hcell]
          nofun
      · by_cases hcell : P.cell = true
        · rw [if_pos hcell]
          nofun
        · intro _
          exact Or.inr (Bool.eq_false_iff.mpr hcell)
  | finish =>
      exact ⟨p, inv_setUlt h hg.2 (by rw [hg.1]; trivial) (by nofun) (by nofun)⟩
  | leave =>
      have hult : s.ult = .leaving := hg
      rcases hne (by rw [hult]; nofun) with ⟨c, l, hstack⟩
      simp only [next, hstack]
      exact ⟨p, inv_leave h hult hstack fun c' => hkept c l c' hstack⟩
  | store =>
      have hult : s.ult = .storing := hg
      rcases hne (by rw [hult]; nofun) with ⟨c, l, hstack⟩
      simp only [next, hstack]
      rw [← hstack]
      exact ⟨p, inv_store h hult hstack⟩
  | decideLoad =>
      have hult : s.ult = .deciding := hg
      rcases hne (by rw [hult]; nofun) with ⟨c, l, hstack⟩
      simp only [next, hstack]
      rw [← hstack]
      refine ⟨p, inv_setUlt h (by rw [hstack]; nofun) (by rw [hult]; trivial) (by nofun) ?_⟩
      intro _
      exact Or.inl ⟨by rw [hult]; trivial, rfl⟩
  | decideExchange =>
      rcases hg with ⟨refs, hult⟩
      rcases hne (by rw [hult]; nofun) with ⟨c, l, hstack⟩
      simp only [next, hstack, hult]
      exact inv_decidePark h hstack hult
  | resume q => exact ⟨.running, inv_resume h hg⟩
  -- A waker is made from the call that the ULT is polling.
  | borrow c k =>
      refine ⟨p, inv_setWaker h (by rw [hg.2]; nofun) (by nofun) ?_⟩
      intro c' hc'
      cases hc'
      exact h.started c hg.1
  | clone c k =>
      refine ⟨p, inv_setWaker h (by rw [hg.2]; nofun) ?_ ?_⟩
      · split_ifs
        all_goals nofun
      · intro c' hc'
        split_ifs at hc'
        all_goals
          cases hc'
          exact h.started c hg.1
  | shareLoad k =>
      rcases hg with ⟨c, hk⟩
      simp only [next, hk]
      exact ⟨p, inv_setWaker h (by rw [hk]; nofun) (by nofun) (hcall hk rfl rfl)⟩
  | shareExchange k =>
      rcases hg with ⟨c, old, hk⟩
      simp only [next, hk]
      by_cases heq : s.word (P.home c) = old
      · rw [if_pos heq]
        have hset : Inv P (s.setWord (P.home c) (share old)) p :=
          inv_setWord h (by rw [decode_share, heq])
        exact ⟨p, inv_setWaker hset (by change ¬ (s.waker k).Claims; rw [hk]; nofun) (by nofun)
          (hcall hk rfl rfl)⟩
      · rw [if_neg heq]
        exact ⟨p, inv_setWaker h (by rw [hk]; nofun) (by nofun) (hcall hk rfl rfl)⟩
  | cloneWaker k k' =>
      obtain ⟨⟨c, hk⟩, hk'⟩ := hg
      refine ⟨p, inv_setWaker h (by rw [hk']; nofun) (by rw [hk]; nofun) ?_⟩
      rw [hk]
      exact hcall hk rfl rfl
  | drop k =>
      rcases hg with ⟨c, hk⟩
      exact ⟨p, inv_setWaker h (by rw [hk]; nofun) (by nofun) (by nofun)⟩
  | wake k =>
      rcases hg with ⟨c, hk⟩
      simp only [next, hk]
      exact ⟨p, inv_setWaker h (by rw [hk]; nofun) (by nofun) (hcall hk rfl rfl)⟩
  | wakeLoad k =>
      rcases hg with ⟨c, hk⟩
      have hset : ∀ pc : WakerPc C, ¬ pc.Claims → pc.call = some c → Inv P (s.setWaker k pc) p :=
        fun pc hpc hpcc => inv_setWaker h (by rw [hk]; nofun) hpc (hcall hk rfl hpcc)
      simp only [next, hk]
      rcases decode_wakeTry (s.word (P.home c)) with
        ⟨-, new, hout, -⟩ | ⟨-, new, hout, -⟩ | ⟨hold, hout⟩
      · rw [hout]
        exact ⟨p, hset _ (by nofun) rfl⟩
      · rw [hout]
        exact ⟨p, hset _ (by nofun) rfl⟩
      · -- A wake that finds an idle word has come to a call that is over.
        rw [hout]
        refine ⟨p, inv_wokenBy (hset _ (by nofun) rfl) ?_⟩
        intro howner
        rcases hold with hnot | hidle
        · exact Or.inl hnot
        · have hback := hkept c hk howner hidle
          refine Or.inr ⟨hback.1, hback.2, ?_⟩
          intro hp
          have hparked := (h.parked (P.home c)).mpr ⟨hp, c, hback.1, rfl⟩
          rw [hidle] at hparked
          cases hparked
  | wakeExchange k =>
      rcases hg with ⟨c, refs, hk⟩
      simp only [next, hk]
      exact inv_wakeExchange h hk
  | read k =>
      rcases hg with ⟨c, hk⟩
      simp only [next, hk]
      exact ⟨p, (inv_read h hk).2⟩
  | push k q =>
      rcases hg with ⟨c, wait, hk⟩
      simp only [next, hk]
      exact ⟨.queue q, inv_push h hk⟩

omit [DecidableEq K] [DecidableEq C] [DecidableEq Q] in
/-- A parked ULT that a wake has claimed is with the waker or in a queue. -/
theorem not_lost (h : Inv P s p) : ¬ Lost s := by
  intro ⟨hult, hqueue, hclaims, c, hc, hwoken⟩
  have hne : p ≠ .running := fun hp => h.running.mpr hp hult
  -- Wherever the thread is, it is found there.
  cases p with
  | running => exact hne rfl
  | waker k => exact hclaims k ((h.waker k).mpr rfl)
  | queue q =>
      have hone := (h.queue q).1 rfl
      rw [hqueue q] at hone
      omega
  | parked =>
      have howner : owner P (P.home c) s.stack = some c := by
        cases hs : s.stack with
        | nil =>
            rw [hs] at hc
            cases hc
        | cons t l =>
            rw [hs] at hc
            cases hc
            rw [owner_cons, if_pos rfl]
      have hparked := (h.parked (P.home c)).mpr ⟨rfl, c, hc, rfl⟩
      rcases h.woken (P.home c) c howner hwoken with hnot | ⟨-, -, hp⟩
      · rw [hparked] at hnot
        cases hnot
      · exact hp rfl

/-- A wake that the word does not keep is lost when the ULT parks. -/
theorem lost_of_deciding {c : C} {l : List C} (hstack : s.stack = c :: l)
    (hwoken : s.woken c = true) (hword : decode (s.word (P.home c)) ≠ .notified)
    (hqueue : ∀ q, s.queue q = 0) (hclaims : ∀ k, ¬ (s.waker k).Claims) (hult : s.ult = .deciding) :
    ∃ bs, (system P).Legal s bs ∧ Lost ((system P).run s bs) := by
  have hpark : (parkTry (s.word (P.home c))).2 = true := by
    rcases decode_parkTry (s.word (P.home c)) with ⟨hold, -, -⟩ | ⟨-, -, hout⟩
    · exact absurd hold hword
    · exact hout
  refine ⟨[.decideLoad, .decideExchange], ⟨hult, ⟨s.word (P.home c), ?_⟩, trivial⟩, ?_⟩
  · simp only [system, next, hstack]
  · simp only [system, System.run, next, hstack, State.decidePark, if_pos, hpark]
    exact ⟨rfl, hqueue, hclaims, c, by simp [State.setWord], hwoken⟩

/-- So it is from wherever in its poll or in `wait` the ULT is. -/
theorem lost_of_blind {c : C} {l : List C} (hstack : s.stack = c :: l)
    (hwoken : s.woken c = true) (hword : decode (s.word (P.home c)) ≠ .notified)
    (hqueue : ∀ q, s.queue q = 0) (hclaims : ∀ k, ¬ (s.waker k).Claims) (hult : s.ult.Blind) :
    ∃ bs, (system P).Legal s bs ∧ Lost ((system P).run s bs) := by
  -- Once in `wait`, the ULT parks without looking at the wake.
  have hstore : ∀ s' : State C D K Q, s'.stack = c :: l → s'.woken c = true →
      decode (s'.word (P.home c)) ≠ .notified → (∀ q, s'.queue q = 0) →
      (∀ k, ¬ (s'.waker k).Claims) → s'.ult = .storing →
      ∃ bs, (system P).Legal s' bs ∧ Lost ((system P).run s' bs) := by
    intro s' hstack hwoken hword hqueue hclaims hult
    have hnext := lost_of_deciding (P := P) (s := next P s' .store) (c := c) (l := l)
      (by simp only [next, hstack]) (by simp only [next, hstack, hwoken])
      (by simpa only [next, hstack] using hword) (by simpa only [next, hstack] using hqueue)
      (by simpa only [next, hstack] using hclaims) (by simp only [next, hstack])
    rcases hnext with ⟨bs, hlegal, hlost⟩
    exact ⟨.store :: bs, ⟨hult, hlegal⟩, hlost⟩
  -- From wherever it is, some steps of its own lead there.
  cases hu : s.ult with
  | ready | leaving | suspended =>
      rw [hu] at hult
      exact hult.elim
  | storing => exact hstore s hstack hwoken hword hqueue hclaims hu
  | deciding => exact lost_of_deciding hstack hwoken hword hqueue hclaims hu
  | polling =>
      have hnext : ∃ bs, (system P).Legal (next P s .pending) bs ∧
          Lost ((system P).run (next P s .pending) bs) := by
        by_cases hcell : P.cell = true
        · exact hstore _ hstack hwoken hword hqueue hclaims (by simp only [next, if_pos hcell])
        · exact lost_of_deciding (s := next P s .pending) hstack hwoken hword hqueue hclaims
            (by simp only [next, if_neg hcell])
      rcases hnext with ⟨bs, hlegal, hlost⟩
      exact ⟨.pending :: bs, ⟨⟨hu, by rw [hstack]; nofun⟩, hlegal⟩, hlost⟩
  | decideCas refs =>
      by_cases heq : s.word (P.home c) = refs
      · -- The exchange parks the ULT.
        subst heq
        have hpark : (parkTry (s.word (P.home c))).2 = true := by
          rcases decode_parkTry (s.word (P.home c)) with ⟨hold, -, -⟩ | ⟨-, -, hout⟩
          · exact absurd hold hword
          · exact hout
        refine ⟨[.decideExchange], ⟨⟨_, hu⟩, trivial⟩, ?_⟩
        simp only [system, System.run, next, hstack, hu, State.decidePark, if_pos, hpark]
        exact ⟨rfl, hqueue, hclaims, c, by simp [hstack, State.setWord], hwoken⟩
      · have hback : next P s .decideExchange = { s with ult := .deciding } := by
          simp only [next, hstack, hu, State.decidePark, if_neg heq]
        rcases lost_of_deciding (P := P) (s := { s with ult := .deciding }) hstack hwoken hword
          hqueue hclaims rfl with ⟨bs, hlegal, hlost⟩
        refine ⟨.decideExchange :: bs, ⟨⟨refs, hu⟩, ?_⟩, ?_⟩
        · change (system P).Legal (next P s .decideExchange) bs
          rw [hback]
          exact hlegal
        · change Lost ((system P).run (next P s .decideExchange) bs)
          rw [hback]
          exact hlost

end

end BlockOn

end Waker

end Cmpth

import Cmpth.Post.Ledger
import Cmpth.Post.Listed

/-!
# What the Queueing Delegator Serves

The slots that a server has taken are those whose marks it is going to read, so
that its ledger is in order, and a serve with nothing else going on reads every
mark that has changed.

## Main definitions

* `Booked`: The ledger of the server.
* `posts`: The delegator as the contract sees it.

## Theorems

* `ServePc.Rest.holds`, `not_rest_returned`: Who has slots left to read has the lock.
* `no_rest_of_holds`: A thread that has the lock is the only one that can be preparing a serve.
* `booked_same`: A step of a server that has as much left to read as before.
* `booked_turn`: A step of the server, of which there is one.
* `rest_post`: Where the same slots are taken, there is as much left to read.
* `booked_post`: What a producer does to the links is none of the server's business.
* `booked_next`: Every step keeps the ledger in order.
* `booked_reachable`: The ledger is in order in every state.
* `Alone.quiet`, `Booked.quiet`: A state in which nothing else is going on.
* `Alone.step`: The next step of the thread, with nothing else going on.
* `drain_alone`: The rest of a serve, from the slots that are still to be read.
* `serve_alone`: A serve with nothing else going on empties the list.
* `contract`: The serves meet the contract.
-/

namespace Cmpth

namespace Post

namespace Queue

variable {P T : Type*}

/-- The slots whose marks the thread has still to read before it serves. -/
def ServePc.Rest (next : P → Option (Option P)) (l : List P) : ServePc P → Prop
  | .draining _ p => Chain next p l
  | .unlisting _ slot p | .collecting _ slot p => ∃ m, l = slot :: m ∧ Chain next p m
  | .serving _ => l = []
  | .idle | .polling | .wanting _ | .trying _ | .locked _ | .unlocking _ | .checking | .asking
    | .spinning | .spinningTry | .inside => False

theorem ServePc.Rest.holds {next : P → Option (Option P)} {l : List P} {pc : ServePc P}
    (h : pc.Rest next l) : pc.Holds := by
  cases pc <;> trivial

theorem not_rest_returned (next : P → Option (Option P)) (l : List P) (duty : Bool) :
    ¬ (returned duty : ServePc P).Rest next l :=
  fun h => not_holds_returned duty h.holds

variable [DecidableEq P]

/-- The ledger of the server. -/
def Booked (s : State P T) : Prop :=
  Bookkeeping (fun t l => (s.serve t).Rest s.links l) s.mark s.seen s.log s.batch

variable {s s' : State P T} {t : T}

omit [DecidableEq P] in
/-- A thread that has the lock is the only one that can be preparing a serve. -/
theorem no_rest_of_holds (hlock : Locked s) (ht : (s.serve t).Holds) {t' : T} (hne : t' ≠ t)
    (l : List P) : ¬ (s.serve t').Rest s.links l :=
  fun h => hne (hlock.one t' t h.holds ht)

variable [DecidableEq T]

/-- A step of a server that has as much left to read as before. -/
theorem booked_same (pc : ServePc P) (h : Booked s)
    (hserve : s'.serve = Function.update s.serve t pc) (hnext : s'.nextPending = s.nextPending)
    (hmark : s'.mark = s.mark) (hseen : s'.seen = s.seen) (hlog : s'.log = s.log)
    (hbatch : s'.batch = s.batch)
    (hrest : ∀ l, pc.Rest s.links l ↔ (s.serve t).Rest s.links l) : Booked s' := by
  unfold Booked at h ⊢
  rw [hmark, hseen, hlog, hbatch]
  refine h.congr fun t' l => ?_
  rw [links_congr hnext, hserve]
  by_cases hne : t' = t
  · rw [hne, Function.update_self]
    exact hrest l
  · rw [Function.update_of_ne hne]

/-- A step of the server, of which there is one. -/
theorem booked_turn (pc : ServePc P) (hlock : Locked s) (ht : (s.serve t).Holds)
    (hserve : s'.serve = Function.update s.serve t pc) (hnext : s'.nextPending = s.nextPending)
    (hnone : (∀ l, ¬ pc.Rest s.links l) → Ledger s'.mark s'.seen s'.log s'.batch none)
    (hsome : ∀ l, pc.Rest s.links l → Ledger s'.mark s'.seen s'.log s'.batch (some l)) :
    Booked s' := by
  have hself : s'.serve t = pc := by
    rw [hserve]
    exact Function.update_self ..
  unfold Booked
  rw [links_congr hnext]
  refine bookkeeping_turn t (fun t' hne l hl => ?_) ?_ ?_
  · rw [hserve, Function.update_of_ne hne] at hl
    exact no_rest_of_holds hlock ht hne l hl
  · rw [hself]
    exact hnone
  · rw [hself]
    exact hsome

omit [DecidableEq P] [DecidableEq T] in
/-- Where the same slots are taken, there is as much left to read. -/
theorem rest_post {l l' : List P} {d : T → List P} (hl : Listed s l d) (hl' : Listed s' l' d)
    (hserve : s'.serve = s.serve) (t : T) (m : List P) :
    (s'.serve t).Rest s'.links m ↔ (s.serve t).Rest s.links m := by
  have hd := hl.drains t
  have hd' := hl'.drains t
  rw [hserve] at hd' ⊢
  -- Both sides describe the slots that the server has taken.
  cases hpc : s.serve t <;> rw [hpc] at hd hd'
  case draining duty p =>
    exact ⟨fun hm => Chain.unique hm hd' ▸ hd, fun hm => Chain.unique hm hd ▸ hd'⟩
  case unlisting duty slot p =>
    rcases hd with ⟨k, hk, hd⟩
    rcases hd' with ⟨k', hk', hd'⟩
    have hkk : k' = k := (List.cons.inj (hk'.symm.trans hk)).2
    rw [hkk] at hd'
    constructor
    · rintro ⟨m', rfl, hm⟩
      exact ⟨k, by rw [hm.unique hd'], hd⟩
    · rintro ⟨m', rfl, hm⟩
      exact ⟨k, by rw [hm.unique hd], hd'⟩
  case collecting duty slot p =>
    constructor
    · rintro ⟨m', rfl, hm⟩
      exact ⟨d t, by rw [hm.unique hd'], hd⟩
    · rintro ⟨m', rfl, hm⟩
      exact ⟨d t, by rw [hm.unique hd], hd'⟩
  all_goals exact Iff.rfl

omit [DecidableEq T] in
/-- What a producer does to the links is none of the server's business. -/
theorem booked_post (h : Booked s) {l l' : List P} {d : T → List P} (hl : Listed s l d)
    (hl' : Listed s' l' d) (hserve : s'.serve = s.serve) (hmark : s'.mark = s.mark)
    (hseen : s'.seen = s.seen) (hlog : s'.log = s.log) (hbatch : s'.batch = s.batch) :
    Booked s' := by
  unfold Booked at h ⊢
  rw [hmark, hseen, hlog, hbatch]
  exact h.congr (rest_post hl hl' hserve)

/-- Every step keeps the ledger in order. -/
theorem booked_next {latency : Nat} (h : Booked s) (hkept : Kept s) {a : Action P T}
    (hg : guard s a) : Booked (next latency s a) := by
  rcases hkept.listed with ⟨l, d, hl⟩
  -- Before and after these steps the thread prepares no serve.
  have hout : ∀ {t pc}, s.serve t = pc → (∀ m, ¬ pc.Rest s.links m) → ∀ pc' : ServePc P,
      (∀ m, ¬ pc'.Rest s.links m) → ∀ m, pc'.Rest s.links m ↔ (s.serve t).Rest s.links m := by
    rintro t _ rfl hx pc' hx' m
    exact iff_of_false (hx' m) (hx m)
  have hlook : ∀ t duty, (∀ m, ¬ (s.serve t).Rest s.links m) → Booked (s.look t duty) := by
    intro t duty hx
    refine booked_same _ h rfl rfl rfl rfl rfl rfl (hout rfl hx _ fun m => ?_)
    split
    · exact not_rest_returned _ m duty
    · exact id
  have hidle : ∀ {t}, s.serve t = .idle → ∀ m, ¬ (s.serve t).Rest s.links m := by
    intro t ht m
    rw [ht]
    exact id
  -- A post makes a mark larger; the server's reads move tickets from the marks to the batch.
  cases a with
  | post p =>
      exact h.post p
  | postStep p now spurious =>
      rcases listed_postNext latency hl p now spurious with ⟨l', hl'⟩
      rcases postNext_frame latency s p now spurious with
        ⟨hserve, _, hseen, hmark, hlog, hbatch⟩
      exact booked_post h hl hl' hserve hmark hseen hlog hbatch
  | poll t =>
      exact booked_same .polling h rfl rfl rfl rfl rfl rfl (hout rfl (hidle hg) _ fun _ => id)
  | serveNow t => exact hlook t false (hidle hg)
  | withLock t =>
      exact booked_same .spinning h rfl rfl rfl rfl rfl rfl (hout rfl (hidle hg) _ fun _ => id)
  | step t now =>
      change Booked (s.serveNext latency t now)
      have hd := hl.drains t
      unfold State.serveNext
      cases hpc : s.serve t with
      | idle => exact h
      | polling => exact hlook t true fun m => by rw [hpc]; exact id
      | wanting duty =>
          refine booked_same _ h rfl rfl rfl rfl rfl rfl (hout hpc (fun _ => id) _ fun m => ?_)
          split
          · exact not_rest_returned _ m duty
          · exact id
      | trying duty =>
          dsimp only
          split
          · exact booked_same _ h rfl rfl rfl rfl rfl rfl
              (hout hpc (fun _ => id) _ fun m => not_rest_returned _ m duty)
          · exact booked_same (.locked duty) h rfl rfl rfl rfl rfl rfl
              (hout hpc (fun _ => id) _ fun _ => id)
      | locked duty =>
          have hholds : (s.serve t).Holds := by
            rw [hpc]
            trivial
          -- Nobody else is preparing a serve, and this one begins.
          have hledger : Ledger s.mark s.seen s.log s.batch none := by
            refine h.idle fun t' m hm => ?_
            by_cases hne : t' = t
            · rw [hne, hpc] at hm
              exact hm
            · exact no_rest_of_holds hkept.locked hholds hne m hm
          refine booked_turn (.draining duty s.pending) hkept.locked hholds rfl rfl
            (fun hnone => absurd hl.chain (hnone l)) fun m hm => ?_
          exact hledger.begin (Chain.nodup hm)
      | draining duty p =>
          cases p with
          | none =>
              refine booked_same (.serving duty) h rfl rfl rfl rfl rfl rfl fun m => ?_
              rw [hpc]
              constructor
              · intro hm
                rw [show m = [] from hm]
                rfl
              · exact fun hm => Chain.eq_nil hm
          | some slot =>
              refine booked_same _ h rfl rfl rfl rfl rfl rfl fun m => ?_
              rw [hpc]
              constructor
              · rintro ⟨k, rfl, hk⟩
                exact ⟨rfl, _, rfl, hk⟩
              · intro hm
                rcases Chain.eq_cons hm with ⟨q, k, rfl, hq, hk⟩
                cases hq
                exact ⟨k, rfl, hk⟩
      | unlisting duty slot p =>
          refine booked_same (.collecting duty slot p) h rfl rfl rfl rfl rfl rfl fun m => ?_
          rw [hpc]
          exact Iff.rfl
      | collecting duty slot p =>
          rw [hpc] at hd
          refine booked_turn (.draining duty p) hkept.locked ?_ rfl rfl
            (fun hnone => absurd hd (hnone (d t))) fun m hm => ?_
          · rw [hpc]
            trivial
          · refine (h.taken t (slot :: m) ?_).collect
            rw [hpc]
            exact ⟨m, rfl, hm⟩
      | serving duty =>
          refine booked_turn (.unlocking duty) hkept.locked ?_ rfl rfl (fun _ => ?_)
            fun m hm => hm.elim
          · rw [hpc]
            trivial
          · refine (h.taken t [] ?_).serve
            rw [hpc]
            rfl
      | unlocking duty =>
          exact booked_same _ h rfl rfl rfl rfl rfl rfl
            (hout hpc (fun _ => id) _ fun m => not_rest_returned _ m duty)
      | checking =>
          refine booked_same _ h rfl rfl rfl rfl rfl rfl (hout hpc (fun _ => id) _ fun m => ?_)
          split <;> exact id
      | asking =>
          exact booked_same .idle h rfl rfl rfl rfl rfl rfl (hout hpc (fun _ => id) _ fun _ => id)
      | spinning =>
          refine booked_same _ h rfl rfl rfl rfl rfl rfl (hout hpc (fun _ => id) _ fun m => ?_)
          split <;> exact id
      | spinningTry =>
          dsimp only
          split
          · exact booked_same .spinning h rfl rfl rfl rfl rfl rfl
              (hout hpc (fun _ => id) _ fun _ => id)
          · exact booked_same .inside h rfl rfl rfl rfl rfl rfl
              (hout hpc (fun _ => id) _ fun _ => id)
      | inside =>
          exact booked_same .idle h rfl rfl rfl rfl rfl rfl (hout hpc (fun _ => id) _ fun _ => id)

theorem booked_reachable {latency : Nat} (h : (system latency).Reachable s) : Booked s := by
  have hboth : Kept s ∧ Booked s := by
    refine System.Reachable.induct (P := fun s => Kept s ∧ Booked s) h
      (fun s hi => ⟨kept_init hi, ?_⟩) fun s a hs hg =>
        ⟨kept_next hs.1 hg, booked_next hs.2 hs.1 hg⟩
    rcases hi with ⟨hmark, _, hseen, _, _, hbatch, hlog, _, hserve⟩
    refine ⟨fun _ => ?_, fun t l hl => ?_⟩
    · rw [hbatch, hlog]
      exact ledger_new hmark hseen
    · rw [hserve] at hl
      exact hl.elim
  exact hboth.2

/-- The slot whose mark the thread is about to read. -/
def ServePc.reads : ServePc P → Option P
  | .collecting _ slot _ => some slot
  | .idle | .polling | .wanting _ | .trying _ | .locked _ | .draining _ _ | .unlisting _ _ _
    | .serving _ | .unlocking _ | .checking | .asking | .spinning | .spinningTry | .inside => none

/-- The delegator as the contract sees it. -/
def posts (latency : Nat) : PostSystem P T (State P T) (Action P T) where
  system := system latency
  mark := State.mark
  log := State.log
  batch := State.batch
  reads := fun s a =>
    match a with
    | .step t _ => (s.serve t).reads
    | .post _ | .postStep _ _ _ | .poll _ | .serveNow _ | .withLock _ => none
  Quiet := Quiet
  serve := .serveNow
  step := fun t => .step t 0

/-- Nothing is going on but what the thread does as a server. -/
structure Alone (s : State P T) (t : T) (pc : ServePc P) : Prop where
  post : ∀ p, s.post p = .idle
  mine : s.serve t = pc
  others : ∀ t', t' ≠ t → s.serve t' = .idle

omit [DecidableEq P] [DecidableEq T] in
theorem Alone.quiet (h : Alone s t .idle) : Quiet s := by
  refine ⟨h.post, fun t' => ?_⟩
  by_cases hne : t' = t
  · rw [hne]
    exact h.mine
  · exact h.others t' hne

/-- What a serve with nothing else going on leaves behind. -/
def Served (s s' : State P T) : Prop :=
  Quiet s' ∧ s'.pending = none ∧ s'.mark = s.mark

/-- The next step of the thread, with nothing else going on. -/
theorem Alone.step {latency : Nat} {s₀ : State P T} {pc : ServePc P} (h : Alone s t pc)
    (pc' : ServePc P) (s' : State P T) (hpc : pc ≠ .idle)
    (hnext : s.serveNext latency t 0 = s') (hpost : s'.post = s.post)
    (hserve : s'.serve = Function.update s.serve t pc')
    (hrest : Alone s' t pc' → (system latency).Repeats (.step t 0) (Served s₀) s') :
    (system latency).Repeats (.step t 0) (Served s₀) s := by
  refine System.Repeats.step ?_ ?_
  · change s.serve t ≠ .idle
    rw [h.mine]
    exact hpc
  · change (system latency).Repeats (.step t 0) (Served s₀) (s.serveNext latency t 0)
    rw [hnext]
    refine hrest ⟨fun p => ?_, ?_, fun t' hne => ?_⟩
    · rw [hpost]
      exact h.post p
    · rw [hserve]
      exact Function.update_self ..
    · rw [hserve, Function.update_of_ne hne]
      exact h.others t' hne

/-- The rest of a serve, from the slots that are still to be read. -/
theorem drain_alone {latency : Nat} {s₀ : State P T} :
    ∀ (l : List P) (s : State P T) (p : Option P), Chain s.links p l →
      Alone s t (.draining false p) → s.pending = none → s.mark = s₀.mark →
      (system latency).Repeats (.step t 0) (Served s₀) s := by
  intro l
  -- One slot after the other is unlisted, read and added to the batch.
  induction l with
  | nil =>
      intro s p hl halone hpending hmark
      rw [show p = none from hl] at halone
      let s₁ := s.setServe t (.serving false)
      let s₂ : State P T :=
        { s₁.setServe t (.unlocking false) with
          log := if s.batch = [] then s.log else s.log ++ [s.batch] }
      let s₃ : State P T := { s₂.setServe t .idle with busy := false }
      refine halone.step _ s₁ nofun (by rw [State.serveNext, halone.mine]) rfl rfl fun h₁ => ?_
      refine h₁.step _ s₂ nofun (by rw [State.serveNext, h₁.mine]; rfl) rfl rfl fun h₂ => ?_
      refine h₂.step .idle s₃ nofun (by rw [State.serveNext, h₂.mine]; rfl) rfl rfl fun h₃ => ?_
      exact System.repeats_none ⟨h₃.quiet, hpending, hmark⟩
  | cons slot l ih =>
      intro s p hl halone hpending hmark
      rcases hl with ⟨rfl, q, hq, hl⟩
      cases hq
      let next := s.nextPending slot
      let s₁ := s.setServe t (.unlisting false slot next)
      let s₂ : State P T :=
        { s₁.setServe t (.collecting false slot next) with
          queued := Function.update s.queued slot false }
      let s₃ : State P T :=
        { s₂.setServe t (.draining false next) with
          seen := Function.update s.seen slot
            (collect slot (s.mark slot) (s.seen slot) s.batch).1
          batch := (collect slot (s.mark slot) (s.seen slot) s.batch).2 }
      refine halone.step _ s₁ nofun (by rw [State.serveNext, halone.mine]) rfl rfl fun h₁ => ?_
      refine h₁.step _ s₂ nofun (by rw [State.serveNext, h₁.mine]; rfl) rfl rfl fun h₂ => ?_
      refine h₂.step _ s₃ nofun (by rw [State.serveNext, h₂.mine]; rfl) rfl rfl fun h₃ => ?_
      exact ih s₃ next hl h₃ hpending hmark

/-- A serve with nothing else going on empties the list. -/
theorem serve_alone (latency : Nat) (hkept : Kept s) (hq : Quiet s) (t : T) :
    (system latency).Repeats (.step t 0) (Served s) (s.look t false) := by
  have hset : ∀ pc, Alone (s.setServe t pc) t pc := by
    intro pc
    exact ⟨hq.1, Function.update_self .., fun t' hne =>
      (Function.update_of_ne hne ..).trans (hq.2 t')⟩
  -- Nobody else holds the lock.
  have hfree : ¬ s.busy = true := by
    intro hx
    rcases hkept.locked.held hx with ⟨t', ht'⟩
    rw [hq.2 t'] at ht'
    exact ht'
  rcases hkept.listed with ⟨l, d, hl⟩
  unfold State.look
  -- An empty list is seen without the lock; otherwise the serve takes it and drains.
  by_cases hp : s.pending = none
  · rw [if_pos hp]
    exact System.repeats_none ⟨(hset _).quiet, hp, rfl⟩
  · rw [if_neg hp]
    have h₀ := hset (.wanting false)
    let s₁ := (s.setServe t (.wanting false)).setServe t (.trying false)
    let s₂ : State P T := { s₁.setServe t (.locked false) with busy := true }
    let s₃ : State P T :=
      { s₂.setServe t (.draining false s.pending) with
        batch := []
        pending := none }
    refine h₀.step _ s₁ nofun ?_ rfl rfl fun h₁ => ?_
    · rw [State.serveNext, h₀.mine]
      exact congrArg (State.setServe _ t) (if_neg hfree)
    refine h₁.step _ s₂ nofun ?_ rfl rfl fun h₂ => ?_
    · rw [State.serveNext, h₁.mine]
      exact if_neg hfree
    refine h₂.step _ s₃ nofun (by rw [State.serveNext, h₂.mine]; rfl) rfl rfl fun h₃ => ?_
    exact drain_alone l s₃ s.pending hl.chain h₃ rfl rfl

omit [DecidableEq T] in
theorem Booked.quiet (h : Booked s) (hq : Quiet s) :
    Ledger s.mark s.seen s.log s.batch none := by
  refine h.idle fun t l hl => ?_
  rw [hq.2 t] at hl
  exact hl

/-- The serves of the queueing delegator meet the contract. -/
theorem contract {latency : Nat} (h : (system latency).Reachable s) :
    ServeContract (posts latency) s := by
  have hkept := kept_reachable h
  have hbooked := booked_reachable h
  rcases hbooked.ledger with ⟨rest, hledger⟩
  refine
    { once := hledger.once
      grows := hledger.grows
      made := fun t ht => hledger.made t (List.mem_append_left _ ht)
      covers := fun a p _ hreads n hpos hn => ?_
      settles := fun hq t => ?_ }
  · cases a with
    | post | postStep | poll | serveNow | withLock => cases hreads
    | step t now =>
        have hreads : (s.serve t).reads = some p := hreads
        rcases hkept.listed with ⟨l, d, hl⟩
        have hd := hl.drains t
        cases hpc : s.serve t <;> rw [hpc] at hd hreads <;> cases hreads
        case collecting.refl duty q =>
          have hrest : Ledger s.mark s.seen s.log s.batch (some (p :: d t)) := by
            refine hbooked.taken t _ ?_
            rw [hpc]
            exact ⟨d t, rfl, hd⟩
          have hnext : (posts latency).system.next s (.step t now) =
              { s.setServe t (.draining duty q) with
                seen := Function.update s.seen p (collect p (s.mark p) (s.seen p) s.batch).1
                batch := (collect p (s.mark p) (s.seen p) s.batch).2 } := by
            change s.serveNext latency t now = _
            rw [State.serveNext, hpc]
          rw [hnext]
          refine hrest.collect.covers ?_ hpos hn
          rw [Function.update_self, collect_fst]
  · rcases serve_alone latency hkept hq t with ⟨n, hlegal, hquiet, hpending, hmark⟩
    have hrun : (system latency).Legal s ((posts latency).alone t n) := ⟨hq.2 t, hlegal⟩
    have hreach := (system latency).reachableIf_run _ s h hrun ((system latency).along_true _ _)
    refine ⟨n, hrun, hquiet, fun p => ?_⟩
    -- Nothing is listed, so every mark has been read.
    have hseen : ∀ p, s.mark p = ((system latency).run s ((posts latency).alone t n)).seen p := by
      intro p
      rcases (kept_reachable hreach).listed with ⟨l, d, hl⟩
      have hempty : l = [] := by
        have hchain := hl.chain
        rw [show ((system latency).run s ((posts latency).alone t n)).pending = none from
          hpending] at hchain
        exact hchain.eq_nil
      by_contra hne
      have hmem := ((kept_reachable hreach).settled hquiet hl).1 p (by
        rw [show ((system latency).run s ((posts latency).alone t n)).mark = s.mark from hmark]
        exact hne)
      rw [hempty] at hmem
      exact absurd hmem List.not_mem_nil
    refine ⟨congrFun hmark p, ?_⟩
    have hledger := (booked_reachable hreach).quiet hquiet
    exact ((hledger.served rfl).lastServed_eq p).trans (hseen p).symm

end Queue

end Post

end Cmpth

import Cmpth.Core.Chain
import Cmpth.Core.TryLock
import Cmpth.Post.Ledger

/-!
# `SlotPostDelegator`

The delegator that looks at every slot. A thread puts its slot on the
registration list before its first post, and a serve reads the marks of the
slots that are on the list when it begins. Every load, store and compare and
exchange of shared memory is a step. Its polls are serves and nothing more.

A slot that is registered meanwhile is for a later serve. With nothing else
going on there is none, so that such a serve reads every mark.

## Main definitions

* `State`, `Action`, `system`: The delegator as a guarded transition system.
* `Registered`: What is on the registration list.
* `Booked`: The ledger of the server.
* `posts`: The delegator as the contract sees it.

## Theorems

* `links_congr`, `postNext_frame`, `postNext_mark`: What a producer's step touches.
* `locked_update`: A thread takes the free lock, keeps it or gives it back.
* `registered_serve`: A step of a server that reads no link.
* `registered_post`: A step of a producer that leaves the list alone.
* `registered_bump`: A producer that is on the list posts.
* `registered_link`: A producer links its slot to what it takes for the head of the list.
* `registered_list`: A producer puts its slot on the list.
* `registered_postNext`: The next step of a first post.
* `postNext_next`: The links of the slots on the list are there to stay.
* `registered_next`, `booked_next`: Every step keeps them.
* `ServePc.Rest.holds`: Who has slots left to read has the lock.
* `locked_next`: Every step leaves the lock with one holder.
* `booked_same`: A step of a server that has as much left to read as before.
* `booked_turn`: A step of the server, of which there is one.
* `rest_postNext`: A server goes through slots that are on the list, and their links stay.
* `booked_postNext`: A producer registers or posts, and what is left to read is as before.
* `kept_init`, `kept_next`, `kept_reachable`: The list and the ledger are kept in every state.
* `Alone.quiet`, `Kept.quiet`: A state in which nothing else is going on.
* `Alone.step`: The next step of the thread, with nothing else going on.
* `scan_alone`: The rest of a serve, from the slots that are still to be read: the marks that have
  changed are among theirs.
* `serve_alone`: A serve with nothing else going on reads every mark that has changed.
* `contract`: The serves meet the contract.
-/

namespace Cmpth

namespace Post

namespace Scan

/-- Where a producer is in `post`. -/
inductive PostPc (P : Type*) where
  | idle
  /-- `register`: about to load the head of the list. -/
  | registering
  /-- About to store `next`. -/
  | loaded (h : Option P)
  /-- About to exchange the head. -/
  | linked (h : Option P)
  /-- About to store the mark. -/
  | bumping
  deriving DecidableEq, Repr

/-- Where a thread is in `serve_now` or in `with_lock`. -/
inductive ServePc (P : Type*) where
  | idle
  /-- `busy` was clear; about to exchange it. -/
  | trying
  /-- About to load the head of the list. -/
  | locked
  /-- About to read the mark of the slot, and its `next`. -/
  | scanning (p : Option P)
  /-- About to call the consumer, if there is anything to serve. -/
  | serving
  | unlocking
  /-- `with_lock`: about to load `busy`. -/
  | spinning
  | spinningTry
  | inside
  deriving DecidableEq, Repr

/-- `registered` is what the producer's own cache says, `log` has the batches the
    consumer was called with. -/
structure State (P T : Type*) where
  mark : P → Nat
  registered : P → Bool
  next : P → Option P
  seen : P → Nat
  head : Option P
  busy : Bool
  batch : List (Ticket P)
  log : List (List (Ticket P))
  post : P → PostPc P
  serve : T → ServePc P

/-- The steps of producers, of servers and of those who take the lock. -/
inductive Action (P T : Type*) where
  /-- `post`: the mark, if the producer has a slot. -/
  | post (p : P)
  /-- The next step of a first post. -/
  | postStep (p : P) (spurious : Bool)
  | serveNow (t : T)
  | withLock (t : T)
  /-- The next step of a thread's serve or of its locked section. -/
  | step (t : T)
  deriving DecidableEq, Repr

section

variable {P T : Type*} [DecidableEq P] [DecidableEq T]

/-- Put a producer in another place. -/
def State.setPost (s : State P T) (p : P) (pc : PostPc P) : State P T :=
  { s with post := Function.update s.post p pc }

/-- Put a server in another place. -/
def State.setServe (s : State P T) (t : T) (pc : ServePc P) : State P T :=
  { s with serve := Function.update s.serve t pc }

/-- `bump`. -/
def State.bump (s : State P T) (p : P) : State P T :=
  { s.setPost p .idle with mark := Function.update s.mark p (s.mark p + 1) }

/-- The next step of a first post. -/
def State.postNext (s : State P T) (p : P) (spurious : Bool) : State P T :=
  match s.post p with
  | .idle => s
  | .registering => s.setPost p (.loaded s.head)
  | .loaded h => { s.setPost p (.linked h) with next := Function.update s.next p h }
  | .linked h =>
      if s.head = h ∧ spurious = false then
        { s.setPost p .bumping with
          head := some p
          registered := Function.update s.registered p true }
      else s.setPost p (.loaded s.head)
  | .bumping => s.bump p

/-- The next step of a serve or a locked section. -/
def State.serveNext (s : State P T) (t : T) : State P T :=
  match s.serve t with
  | .idle => s
  | .trying =>
      if s.busy = true then s.setServe t .idle
      else { s.setServe t .locked with busy := true }
  | .locked => { s.setServe t (.scanning s.head) with batch := [] }
  | .scanning none => s.setServe t .serving
  | .scanning (some slot) =>
      { s.setServe t (.scanning (s.next slot)) with
        seen := Function.update s.seen slot
          (collect slot (s.mark slot) (s.seen slot) s.batch).1
        batch := (collect slot (s.mark slot) (s.seen slot) s.batch).2 }
  | .serving =>
      { s.setServe t .unlocking with
        log := if s.batch = [] then s.log else s.log ++ [s.batch] }
  | .unlocking => { s.setServe t .idle with busy := false }
  | .spinning => s.setServe t (if s.busy = true then .spinning else .spinningTry)
  | .spinningTry =>
      if s.busy = true then s.setServe t .spinning
      else { s.setServe t .inside with busy := true }
  | .inside => { s.setServe t .idle with busy := false }

/-- When an action can be taken. -/
def guard (s : State P T) : Action P T → Prop
  | .post p => s.post p = .idle
  | .postStep p _ => s.post p ≠ .idle
  | .serveNow t | .withLock t => s.serve t = .idle
  | .step t => s.serve t ≠ .idle

instance (s : State P T) : ∀ a, Decidable (guard s a)
  | .post p => inferInstanceAs (Decidable (s.post p = .idle))
  | .postStep p _ => inferInstanceAs (Decidable (s.post p ≠ .idle))
  | .serveNow t | .withLock t => inferInstanceAs (Decidable (s.serve t = .idle))
  | .step t => inferInstanceAs (Decidable (s.serve t ≠ .idle))

/-- What an action does. -/
def next (s : State P T) : Action P T → State P T
  | .post p => if s.registered p = true then s.bump p else s.setPost p .registering
  | .postStep p spurious => s.postNext p spurious
  | .serveNow t => s.setServe t (if s.busy = true then .idle else .trying)
  | .withLock t => s.setServe t .spinning
  | .step t => s.serveNext t

/-- A delegator nobody has used. -/
def init (s : State P T) : Prop :=
  (∀ p, s.mark p = 0) ∧ (∀ p, s.registered p = false) ∧ (∀ p, s.seen p = 0) ∧ s.head = none ∧
  s.busy = false ∧ s.batch = [] ∧ s.log = [] ∧ (∀ p, s.post p = .idle) ∧ ∀ t, s.serve t = .idle

/-- The delegator as a guarded transition system. -/
def system : System (State P T) (Action P T) where
  init := init
  guard := guard
  next := next

instance (s : State P T) (a : Action P T) : Decidable (system.guard s a) :=
  inferInstanceAs (Decidable (guard s a))

end

variable {P T : Type*}

/-- No operation is in flight. -/
def Quiet (s : State P T) : Prop :=
  (∀ p, s.post p = .idle) ∧ ∀ t, s.serve t = .idle

/-- The producer is about to put its slot on the list. -/
def PostPc.Registering : PostPc P → Prop
  | .registering | .loaded _ | .linked _ => True
  | .idle | .bumping => False

/-- The thread has the server lock. -/
def ServePc.Holds : ServePc P → Prop
  | .locked | .scanning _ | .serving | .unlocking | .inside => True
  | .idle | .trying | .spinning | .spinningTry => False

/-- The slots whose marks the thread has still to read before it serves. -/
def ServePc.Rest (next : P → Option (Option P)) (l : List P) : ServePc P → Prop
  | .scanning p => Chain next p l
  | .serving => l = []
  | .idle | .trying | .locked | .unlocking | .spinning | .spinningTry | .inside => False

/-- The slot whose mark the thread is about to read. -/
def ServePc.reads : ServePc P → Option P
  | .scanning p => p
  | .idle | .trying | .locked | .serving | .unlocking | .spinning | .spinningTry | .inside => none

/-- The links of the slots, as a chain follows them. -/
def State.links (s : State P T) (p : P) : Option (Option P) :=
  some (s.next p)

/-- The server lock has one holder. -/
def Locked (s : State P T) : Prop :=
  TryLock s.busy fun t => (s.serve t).Holds

/-- The slots on the registration list are those of the producers that say so,
    and whoever has posted does. -/
structure Registered (s : State P T) (l : List P) : Prop where
  chain : Chain s.links s.head l
  scans : ∀ t p, s.serve t = .scanning p → ∃ m, Chain s.links p m ∧ ∀ q ∈ m, q ∈ l
  known : ∀ p, s.registered p = true ↔ p ∈ l
  registering : ∀ p, (s.post p).Registering → s.registered p = false
  bumping : ∀ p, s.post p = .bumping → s.registered p = true
  posted : ∀ p, s.mark p ≠ 0 → s.registered p = true
  link : ∀ p h, s.post p = .linked h → s.next p = h

section

variable {s s' : State P T} {t : T}

theorem links_congr (hnext : s'.next = s.next) : s'.links = s.links := by
  funext p
  rw [State.links, hnext]
  rfl

variable [DecidableEq T]

/-- A thread takes the free lock, keeps it or gives it back. -/
theorem locked_update {pc : ServePc P} (h : Locked s)
    (hserve : s'.serve = Function.update s.serve t pc)
    (hbusy : s'.busy = s.busy ∧ (pc.Holds ↔ (s.serve t).Holds) ∨
      s.busy = false ∧ s'.busy = true ∧ pc.Holds ∨
      (s.serve t).Holds ∧ ¬ pc.Holds ∧ s'.busy = false) : Locked s' := by
  refine TryLock.update h t (fun t' hne => ?_) ?_
  · rw [hserve, Function.update_of_ne hne]
  · rwa [hserve, Function.update_self]

/-- A step of a server that reads no link. -/
theorem registered_serve (pc : ServePc P) {l : List P} (h : Registered s l)
    (hserve : s'.serve = Function.update s.serve t pc) (hpost : s'.post = s.post)
    (hmark : s'.mark = s.mark) (hregistered : s'.registered = s.registered)
    (hnext : s'.next = s.next) (hhead : s'.head = s.head)
    (hscan : ∀ p, pc = .scanning p → ∃ m, Chain s.links p m ∧ ∀ q ∈ m, q ∈ l) :
    Registered s' l where
  chain := by
    rw [links_congr hnext, hhead]
    exact h.chain
  scans := fun t' p ht' => by
    rw [links_congr hnext]
    rw [hserve] at ht'
    -- The other servers are where they were, with the links they have read.
    by_cases hne : t' = t
    · rw [hne, Function.update_self] at ht'
      exact hscan p ht'
    · rw [Function.update_of_ne hne] at ht'
      exact h.scans t' p ht'
  known := by
    rw [hregistered]
    exact h.known
  registering := by
    rw [hpost, hregistered]
    exact h.registering
  bumping := by
    rw [hpost, hregistered]
    exact h.bumping
  posted := by
    rw [hmark, hregistered]
    exact h.posted
  link := by
    rw [hpost, hnext]
    exact h.link

variable [DecidableEq P]

omit [DecidableEq T] in
theorem postNext_frame (s : State P T) (p : P) (spurious : Bool) :
    (s.postNext p spurious).serve = s.serve ∧ (s.postNext p spurious).busy = s.busy ∧
      (s.postNext p spurious).seen = s.seen ∧ (s.postNext p spurious).log = s.log ∧
      (s.postNext p spurious).batch = s.batch := by
  unfold State.postNext
  cases s.post p with
  | linked h =>
      dsimp only
      split <;> exact ⟨rfl, rfl, rfl, rfl, rfl⟩
  | idle | registering | loaded | bumping => exact ⟨rfl, rfl, rfl, rfl, rfl⟩

omit [DecidableEq T] in
/-- A step of a producer that leaves the list alone. -/
theorem registered_post (pc : PostPc P) {l : List P} (h : Registered s l) {p : P}
    (hpost : s'.post = Function.update s.post p pc) (hserve : s'.serve = s.serve)
    (hmark : ∀ q, s'.mark q ≠ 0 → s.mark q ≠ 0 ∨ q = p ∧ s.registered p = true)
    (hregistered : s'.registered = s.registered) (hnext : s'.next = s.next)
    (hhead : s'.head = s.head) (hpc : pc.Registering → s.registered p = false)
    (hother : pc ≠ .bumping) (hlink : ∀ h', pc ≠ .linked h') : Registered s' l := by
  have hself : s'.post p = pc := by
    rw [hpost]
    exact Function.update_self ..
  have hothers : ∀ q, q ≠ p → s'.post q = s.post q := fun q hne => by
    rw [hpost]
    exact Function.update_of_ne hne ..
  -- Of the producer itself the hypotheses speak; the others are where they were.
  refine
    { chain := by rw [links_congr hnext, hhead]; exact h.chain
      scans := by rw [links_congr hnext, hserve]; exact h.scans
      known := by rw [hregistered]; exact h.known
      registering := fun q hq => ?_
      bumping := fun q hq => ?_
      posted := fun q hq => ?_
      link := fun q h' hq => ?_ }
  · rw [hregistered]
    by_cases hqp : q = p
    · rw [hqp] at hq ⊢
      rw [hself] at hq
      exact hpc hq
    · rw [hothers q hqp] at hq
      exact h.registering q hq
  · rw [hregistered]
    by_cases hqp : q = p
    · rw [hqp, hself] at hq
      exact absurd hq hother
    · rw [hothers q hqp] at hq
      exact h.bumping q hq
  · rw [hregistered]
    rcases hmark q hq with hx | ⟨rfl, hx⟩
    · exact h.posted q hx
    · exact hx
  · rw [hnext]
    by_cases hqp : q = p
    · rw [hqp, hself] at hq
      exact absurd hq (hlink h')
    · rw [hothers q hqp] at hq
      exact h.link q h' hq

omit [DecidableEq T] in
/-- A producer that is on the list posts. -/
theorem registered_bump {l : List P} (h : Registered s l) {p : P} (hp : s.registered p = true) :
    Registered (s.bump p) l := by
  refine registered_post .idle h rfl rfl (fun q hq => ?_) rfl rfl rfl (fun hx => hx.elim) nofun
    nofun
  by_cases hqp : q = p
  · exact .inr ⟨hqp, hp⟩
  · change Function.update s.mark p _ q ≠ 0 at hq
    rw [Function.update_of_ne hqp] at hq
    exact .inl hq

omit [DecidableEq T] in
/-- A producer links its slot to what it takes for the head of the list. -/
theorem registered_link {l : List P} (h : Registered s l) {p : P} {head : Option P}
    (hpc : s.post p = .loaded head) :
    Registered
      { s.setPost p (.linked head) with next := Function.update s.next p head } l := by
  -- A slot that is being registered is not on the list yet.
  have hfresh : s.registered p = false := by
    refine h.registering p ?_
    rw [hpc]
    trivial
  have hnot : p ∉ l := fun hx => by
    rw [(h.known p).mpr hx] at hfresh
    cases hfresh
  -- The link of a slot that nobody can reach.
  have hlinks : State.links
      { s.setPost p (.linked head) with next := Function.update s.next p head } =
      Function.update s.links p (some head) := by
    funext q
    by_cases hq : q = p
    · rw [hq, Function.update_self]
      exact congrArg some (Function.update_self ..)
    · rw [Function.update_of_ne hq]
      exact congrArg some (Function.update_of_ne hq ..)
  refine
    { chain := by rw [hlinks]; exact h.chain.update hnot
      scans := fun t q hq => ?_
      known := h.known
      registering := fun q hq => ?_
      bumping := fun q hq => ?_
      posted := h.posted
      link := fun q h' hq => ?_ }
  · rcases h.scans t q hq with ⟨m, hm, hsub⟩
    rw [hlinks]
    exact ⟨m, hm.update fun hx => hnot (hsub p hx), hsub⟩
  · by_cases hqp : q = p
    · rw [hqp]
      exact hfresh
    · change (Function.update s.post p (.linked head) q).Registering at hq
      rw [Function.update_of_ne hqp] at hq
      exact h.registering q hq
  · change Function.update s.post p (.linked head) q = _ at hq
    by_cases hqp : q = p
    · rw [hqp, Function.update_self] at hq
      cases hq
    · rw [Function.update_of_ne hqp] at hq
      exact h.bumping q hq
  · change Function.update s.post p (.linked head) q = _ at hq
    change Function.update s.next p head q = h'
    by_cases hqp : q = p
    · rw [hqp, Function.update_self] at hq ⊢
      cases hq
      rfl
    · rw [Function.update_of_ne hqp] at hq ⊢
      exact h.link q h' hq

omit [DecidableEq T] in
/-- A producer puts its slot on the list. -/
theorem registered_list {l : List P} (h : Registered s l) {p : P} {head : Option P}
    (hpc : s.post p = .linked head) (hhead : s.head = head) :
    Registered
      { s.setPost p .bumping with
        head := some p
        registered := Function.update s.registered p true } (p :: l) := by
  -- Who is registered stays so.
  have hkeep : ∀ q, s.registered q = true → Function.update s.registered p true q = true := by
    intro q hq
    by_cases hqp : q = p
    · rw [hqp, Function.update_self]
    · rw [Function.update_of_ne hqp]
      exact hq
  refine
    { chain := ⟨rfl, head, congrArg some (h.link p head hpc), hhead ▸ h.chain⟩
      scans := fun t q hq => ?_
      known := fun q => ?_
      registering := fun q hq => ?_
      bumping := fun q hq => ?_
      posted := fun q hq => hkeep q (h.posted q hq)
      link := fun q h' hq => ?_ }
  · rcases h.scans t q hq with ⟨m, hm, hsub⟩
    exact ⟨m, hm, fun x hx => List.mem_cons_of_mem _ (hsub x hx)⟩
  · -- The list is the registered slots, with the new one in front.
    change Function.update s.registered p true q = true ↔ q ∈ p :: l
    by_cases hqp : q = p
    · rw [hqp, Function.update_self]
      exact iff_of_true rfl List.mem_cons_self
    · rw [Function.update_of_ne hqp, h.known q, List.mem_cons]
      simp only [hqp, false_or]
  · change (Function.update s.post p .bumping q).Registering at hq
    change Function.update s.registered p true q = false
    by_cases hqp : q = p
    · rw [hqp, Function.update_self] at hq
      exact hq.elim
    · rw [Function.update_of_ne hqp] at hq ⊢
      exact h.registering q hq
  · change Function.update s.post p .bumping q = _ at hq
    by_cases hqp : q = p
    · rw [hqp]
      exact Function.update_self ..
    · rw [Function.update_of_ne hqp] at hq
      exact hkeep q (h.bumping q hq)
  · change Function.update s.post p .bumping q = _ at hq
    by_cases hqp : q = p
    · rw [hqp, Function.update_self] at hq
      cases hq
    · rw [Function.update_of_ne hqp] at hq
      exact h.link q h' hq

omit [DecidableEq T] in
/-- The next step of a first post. -/
theorem registered_postNext {l : List P} (h : Registered s l) (p : P) (spurious : Bool) :
    ∃ l', Registered (s.postNext p spurious) l' := by
  unfold State.postNext
  cases hpc : s.post p with
  | idle => exact ⟨l, h⟩
  | registering =>
      have hfresh := h.registering p (by rw [hpc]; trivial)
      exact ⟨l, registered_post (.loaded s.head) h rfl rfl (fun _ => .inl) rfl rfl rfl
        (fun _ => hfresh) nofun nofun⟩
  | loaded head => exact ⟨l, registered_link h hpc⟩
  | linked head =>
      have hfresh := h.registering p (by rw [hpc]; trivial)
      dsimp only
      split
      · next hx => exact ⟨p :: l, registered_list h hpc hx.1⟩
      · exact ⟨l, registered_post (.loaded s.head) h rfl rfl (fun _ => .inl) rfl rfl rfl
          (fun _ => hfresh) nofun nofun⟩
  | bumping => exact ⟨l, registered_bump h (h.bumping p hpc)⟩

omit [DecidableEq T] in
/-- The links of the slots on the list are there to stay. -/
theorem postNext_next {l : List P} (h : Registered s l) (p : P) (spurious : Bool) :
    ∀ q ∈ l, (s.postNext p spurious).next q = s.next q := by
  intro q hq
  unfold State.postNext
  cases hpc : s.post p with
  | loaded head =>
      have hne : q ≠ p := by
        rintro rfl
        have hfresh := h.registering q (by rw [hpc]; trivial)
        rw [(h.known q).mpr hq] at hfresh
        cases hfresh
      exact Function.update_of_ne hne ..
  | linked head =>
      dsimp only
      split <;> rfl
  | idle | registering | bumping => rfl

/-- Every step leaves the list with the slots of those who have posted. -/
theorem registered_next {l : List P} (h : Registered s l) {a : Action P T} (hg : guard s a) :
    ∃ l', Registered (next s a) l' := by
  -- The list grows by an exchange of a producer; the server only walks it.
  cases a with
  | post p =>
      change ∃ l', Registered (if s.registered p = true then _ else _) l'
      split
      · next hp => exact ⟨l, registered_bump h hp⟩
      · next hp =>
          exact ⟨l, registered_post .registering h rfl rfl (fun _ => .inl) rfl rfl rfl
            (fun _ => by simpa using hp) nofun nofun⟩
  | postStep p spurious =>
      exact registered_postNext h p spurious
  | serveNow t =>
      refine ⟨l, registered_serve _ h rfl rfl rfl rfl rfl rfl fun p hp => ?_⟩
      split at hp <;> cases hp
  | withLock t => exact ⟨l, registered_serve .spinning h rfl rfl rfl rfl rfl rfl nofun⟩
  | step t =>
      change ∃ l', Registered (s.serveNext t) l'
      unfold State.serveNext
      cases hpc : s.serve t with
      | idle => exact ⟨l, h⟩
      | trying | spinningTry =>
          dsimp only
          split <;> exact ⟨l, registered_serve _ h rfl rfl rfl rfl rfl rfl nofun⟩
      | locked =>
          refine ⟨l, registered_serve (.scanning s.head) h rfl rfl rfl rfl rfl rfl fun p hp => ?_⟩
          cases hp
          exact ⟨l, h.chain, fun _ => id⟩
      | scanning p =>
          cases p with
          | none => exact ⟨l, registered_serve .serving h rfl rfl rfl rfl rfl rfl nofun⟩
          | some slot =>
              refine ⟨l, registered_serve (.scanning (s.next slot)) h rfl rfl rfl rfl rfl rfl
                fun p hp => ?_⟩
              cases hp
              rcases h.scans t _ hpc with ⟨m, hm, hsub⟩
              rcases hm.eq_cons with ⟨q, k, rfl, hq, hk⟩
              cases hq
              exact ⟨k, hk, fun x hx => hsub x (List.mem_cons_of_mem _ hx)⟩
      | serving => exact ⟨l, registered_serve .unlocking h rfl rfl rfl rfl rfl rfl nofun⟩
      | spinning =>
          refine ⟨l, registered_serve _ h rfl rfl rfl rfl rfl rfl fun p hp => ?_⟩
          split at hp <;> cases hp
      | unlocking | inside =>
          exact ⟨l, registered_serve .idle h rfl rfl rfl rfl rfl rfl nofun⟩

omit [DecidableEq P] in
theorem ServePc.Rest.holds {next : P → Option (Option P)} {l : List P} {pc : ServePc P}
    (h : pc.Rest next l) : pc.Holds := by
  cases pc <;> trivial

/-- Every step leaves the lock with one holder. -/
theorem locked_next (h : Locked s) {a : Action P T} (hg : guard s a) : Locked (next s a) := by
  -- A thread that has not the lock, and does not get it.
  have hout : ∀ {s' : State P T} {t : T} (pc : ServePc P),
      s'.serve = Function.update s.serve t pc → s'.busy = s.busy → ¬ (s.serve t).Holds →
      ¬ pc.Holds → Locked s' :=
    fun _ hserve hbusy ht hpc => locked_update h hserve (.inl ⟨hbusy, iff_of_false hpc ht⟩)
  have hidle : ∀ {t}, s.serve t = .idle → ¬ (s.serve t).Holds := by
    intro t ht
    rw [ht]
    exact id
  cases a with
  | post p =>
      change Locked (if s.registered p = true then _ else _)
      split <;> exact h
  | postStep p spurious =>
      rcases postNext_frame s p spurious with ⟨hserve, hbusy, _⟩
      change TryLock (s.postNext p spurious).busy fun t => ((s.postNext p spurious).serve t).Holds
      rw [hserve, hbusy]
      exact h
  | serveNow t =>
      refine hout _ rfl rfl (hidle hg) ?_
      split <;> exact id
  | withLock t => exact hout .spinning rfl rfl (hidle hg) id
  | step t =>
      change Locked (s.serveNext t)
      have hno : ∀ {pc}, s.serve t = pc → ¬ pc.Holds → ¬ (s.serve t).Holds := by
        rintro pc rfl hx
        exact hx
      unfold State.serveNext
      cases hpc : s.serve t with
      | idle => exact h
      | trying =>
          dsimp only
          split
          · exact hout .idle rfl rfl (hno hpc id) id
          · next hb => exact locked_update h rfl (.inr (.inl ⟨by simpa using hb, rfl, trivial⟩))
      | locked | serving => exact locked_update h rfl (.inl ⟨rfl, by rw [hpc]; exact Iff.rfl⟩)
      | scanning p =>
          cases p with
          | none => exact locked_update h rfl (.inl ⟨rfl, by rw [hpc]; exact Iff.rfl⟩)
          | some slot => exact locked_update h rfl (.inl ⟨rfl, by rw [hpc]; exact Iff.rfl⟩)
      | spinning =>
          refine hout _ rfl rfl (hno hpc id) ?_
          split <;> exact id
      | spinningTry =>
          dsimp only
          split
          · exact hout .spinning rfl rfl (hno hpc id) id
          · next hb => exact locked_update h rfl (.inr (.inl ⟨by simpa using hb, rfl, trivial⟩))
      | unlocking | inside =>
          exact locked_update h rfl (.inr (.inr ⟨by rw [hpc]; trivial, id, rfl⟩))

/-- The ledger of the server. -/
def Booked (s : State P T) : Prop :=
  Bookkeeping (fun t l => (s.serve t).Rest s.links l) s.mark s.seen s.log s.batch

/-- A step of a server that has as much left to read as before. -/
theorem booked_same (pc : ServePc P) (h : Booked s)
    (hserve : s'.serve = Function.update s.serve t pc) (hnext : s'.next = s.next)
    (hmark : s'.mark = s.mark) (hseen : s'.seen = s.seen) (hlog : s'.log = s.log)
    (hbatch : s'.batch = s.batch)
    (hrest : ∀ l, pc.Rest s.links l ↔ (s.serve t).Rest s.links l) : Booked s' := by
  unfold Booked at h ⊢
  rw [hmark, hseen, hlog, hbatch]
  refine h.congr fun t' l => ?_
  rw [links_congr hnext, hserve]
  by_cases hne : t' = t
  · rw [hne, Function.update_self]
    exact hrest l
  · rw [Function.update_of_ne hne]

/-- A step of the server, of which there is one. -/
theorem booked_turn (pc : ServePc P) (hlock : Locked s) (ht : (s.serve t).Holds)
    (hserve : s'.serve = Function.update s.serve t pc) (hnext : s'.next = s.next)
    (hnone : (∀ l, ¬ pc.Rest s.links l) → Ledger s'.mark s'.seen s'.log s'.batch none)
    (hsome : ∀ l, pc.Rest s.links l → Ledger s'.mark s'.seen s'.log s'.batch (some l)) :
    Booked s' := by
  have hself : s'.serve t = pc := by
    rw [hserve]
    exact Function.update_self ..
  unfold Booked
  rw [links_congr hnext]
  refine bookkeeping_turn t (fun t' hne l hl => ?_) ?_ ?_
  · rw [hserve, Function.update_of_ne hne] at hl
    exact hne (hlock.one t' t hl.holds ht)
  · rw [hself]
    exact hnone
  · rw [hself]
    exact hsome

omit [DecidableEq T] in
/-- A server goes through slots that are on the list, and their links stay. -/
theorem rest_postNext {l : List P} (hr : Registered s l) (p : P) (spurious : Bool) (t : T)
    (m : List P) :
    ((s.postNext p spurious).serve t).Rest (s.postNext p spurious).links m ↔
      (s.serve t).Rest s.links m := by
  rcases postNext_frame s p spurious with ⟨hserve, _⟩
  have hlinks := postNext_next hr p spurious
  rw [hserve]
  cases hpc : s.serve t with
  | scanning q =>
      rcases hr.scans t q hpc with ⟨k, hk, hsub⟩
      have hk' : Chain (s.postNext p spurious).links q k :=
        hk.congr fun x hx => congrArg some (hlinks x (hsub x hx))
      exact ⟨fun hm => Chain.unique hm hk' ▸ hk, fun hm => Chain.unique hm hk ▸ hk'⟩
  | idle | trying | locked | serving | unlocking | spinning | spinningTry | inside =>
      exact Iff.rfl

omit [DecidableEq T] in
theorem postNext_mark (s : State P T) (p : P) (spurious : Bool) :
    (s.postNext p spurious).mark = s.mark ∨
      (s.postNext p spurious).mark = Function.update s.mark p (s.mark p + 1) := by
  unfold State.postNext
  cases s.post p with
  | linked head =>
      dsimp only
      split <;> exact .inl rfl
  | idle | registering | loaded => exact .inl rfl
  | bumping => exact .inr rfl

omit [DecidableEq T] in
/-- A producer registers or posts, and what is left to read is as before. -/
theorem booked_postNext {l : List P} (h : Booked s) (hr : Registered s l) (p : P)
    (spurious : Bool) : Booked (s.postNext p spurious) := by
  rcases postNext_frame s p spurious with ⟨_, _, hseen, hlog, hbatch⟩
  have hsame := Bookkeeping.congr h (rest_postNext hr p spurious)
  unfold Booked
  rw [hseen, hlog, hbatch]
  rcases postNext_mark s p spurious with hm | hm
  · rw [hm]
    exact hsame
  · rw [hm]
    exact hsame.post p

/-- Every step keeps the ledger in order. -/
theorem booked_next {l : List P} (h : Booked s) (hlock : Locked s) (hr : Registered s l)
    {a : Action P T} (hg : guard s a) : Booked (next s a) := by
  -- Before and after these steps the thread prepares no serve.
  have hout : ∀ {t pc}, s.serve t = pc → (∀ m, ¬ pc.Rest s.links m) → ∀ pc' : ServePc P,
      (∀ m, ¬ pc'.Rest s.links m) → ∀ m, pc'.Rest s.links m ↔ (s.serve t).Rest s.links m := by
    rintro t _ rfl hx pc' hx' m
    exact iff_of_false (hx' m) (hx m)
  -- A post makes a mark larger; the server's reads move tickets from the marks to the batch.
  cases a with
  | post p =>
      change Booked (if s.registered p = true then _ else _)
      split
      · exact Bookkeeping.post h p
      · exact h
  | postStep p spurious => exact booked_postNext h hr p spurious
  | serveNow t =>
      refine booked_same _ h rfl rfl rfl rfl rfl rfl (hout hg (fun _ => id) _ fun m => ?_)
      split <;> exact id
  | withLock t =>
      exact booked_same .spinning h rfl rfl rfl rfl rfl rfl (hout hg (fun _ => id) _ fun _ => id)
  | step t =>
      change Booked (s.serveNext t)
      unfold State.serveNext
      cases hpc : s.serve t with
      | idle => exact h
      | trying =>
          dsimp only
          split
          · exact booked_same .idle h rfl rfl rfl rfl rfl rfl (hout hpc (fun _ => id) _ fun _ => id)
          · exact booked_same .locked h rfl rfl rfl rfl rfl rfl
              (hout hpc (fun _ => id) _ fun _ => id)
      | locked =>
          have hholds : (s.serve t).Holds := by
            rw [hpc]
            trivial
          -- Nobody else is preparing a serve, and this one begins.
          have hledger : Ledger s.mark s.seen s.log s.batch none := by
            refine h.idle fun t' m hm => ?_
            have heq := hlock.one t' t hm.holds hholds
            rw [heq, hpc] at hm
            exact hm
          refine booked_turn (.scanning s.head) hlock hholds rfl rfl
            (fun hnone => absurd hr.chain (hnone l)) fun m hm => ?_
          exact hledger.begin (Chain.nodup hm)
      | scanning p =>
          cases p with
          | none =>
              refine booked_same .serving h rfl rfl rfl rfl rfl rfl fun m => ?_
              rw [hpc]
              constructor
              · intro hm
                rw [show m = [] from hm]
                rfl
              · exact fun hm => Chain.eq_nil hm
          | some slot =>
              rcases hr.scans t _ hpc with ⟨m, hm, _⟩
              rcases hm.eq_cons with ⟨q, k, rfl, hq, hk⟩
              cases hq
              refine booked_turn (.scanning (s.next slot)) hlock ?_ rfl rfl
                (fun hnone => absurd hk (hnone k)) fun m hm => ?_
              · rw [hpc]
                trivial
              · refine (h.taken t (slot :: m) ?_).collect
                rw [hpc]
                exact ⟨rfl, _, rfl, hm⟩
      | serving =>
          refine booked_turn .unlocking hlock ?_ rfl rfl (fun _ => ?_) fun m hm => hm.elim
          · rw [hpc]
            trivial
          · refine (h.taken t [] ?_).serve
            rw [hpc]
            rfl
      | spinning =>
          refine booked_same _ h rfl rfl rfl rfl rfl rfl (hout hpc (fun _ => id) _ fun m => ?_)
          split <;> exact id
      | spinningTry =>
          dsimp only
          split
          · exact booked_same .spinning h rfl rfl rfl rfl rfl rfl
              (hout hpc (fun _ => id) _ fun _ => id)
          · exact booked_same .inside h rfl rfl rfl rfl rfl rfl
              (hout hpc (fun _ => id) _ fun _ => id)
      | unlocking | inside =>
          exact booked_same .idle h rfl rfl rfl rfl rfl rfl (hout hpc (fun _ => id) _ fun _ => id)

/-- What a delegator nobody has used has, and every step keeps. -/
structure Kept (s : State P T) : Prop where
  locked : Locked s
  registered : ∃ l, Registered s l
  booked : Booked s

omit [DecidableEq T] in
theorem kept_init (h : init s) : Kept s := by
  rcases h with ⟨hmark, hregistered, hseen, hhead, hbusy, hbatch, hlog, hpost, hserve⟩
  refine ⟨?_, ⟨[], ?_⟩, fun _ => ?_, fun t l hl => ?_⟩
  · -- Nobody serves, and nothing has been posted.
    unfold Locked
    rw [hbusy]
    refine tryLock_free fun t ht => ?_
    rw [hserve] at ht
    exact ht
  · exact
      { chain := hhead
        scans := fun t p hp => by rw [hserve] at hp; cases hp
        known := fun p => by
          rw [hregistered]
          exact iff_of_false nofun List.not_mem_nil
        registering := fun p _ => hregistered p
        bumping := fun p hp => by rw [hpost] at hp; cases hp
        posted := fun p hp => absurd (hmark p) hp
        link := fun p _ hp => by rw [hpost] at hp; cases hp }
  · rw [hbatch, hlog]
    exact ledger_new hmark hseen
  · rw [hserve] at hl
    exact hl.elim

theorem kept_next (h : Kept s) {a : Action P T} (hg : guard s a) : Kept (next s a) := by
  rcases h.registered with ⟨l, hl⟩
  exact ⟨locked_next h.locked hg, registered_next hl hg, booked_next h.booked h.locked hl hg⟩

theorem kept_reachable (h : system.Reachable s) : Kept s :=
  h.induct (fun _ => kept_init) fun _ _ hs hg => kept_next hs hg

/-- The delegator as the contract sees it. -/
def posts : PostSystem P T (State P T) (Action P T) where
  system := system
  mark := State.mark
  log := State.log
  batch := State.batch
  reads := fun s a =>
    match a with
    | .step t => (s.serve t).reads
    | .post _ | .postStep _ _ | .serveNow _ | .withLock _ => none
  Quiet := Quiet
  serve := .serveNow
  step := .step

/-- Nothing is going on but what the thread does as a server. -/
structure Alone (s : State P T) (t : T) (pc : ServePc P) : Prop where
  post : ∀ p, s.post p = .idle
  mine : s.serve t = pc
  others : ∀ t', t' ≠ t → s.serve t' = .idle

omit [DecidableEq P] in
theorem Alone.quiet (h : Alone s t .idle) : Quiet s := by
  refine ⟨h.post, fun t' => ?_⟩
  by_cases hne : t' = t
  · rw [hne]
    exact h.mine
  · exact h.others t' hne

/-- What a serve with nothing else going on leaves behind. -/
def Served (s s' : State P T) : Prop :=
  Quiet s' ∧ (∀ p, s'.mark p = s'.seen p) ∧ s'.mark = s.mark

/-- The next step of the thread, with nothing else going on. -/
theorem Alone.step {s₀ : State P T} {pc : ServePc P} (h : Alone s t pc) (pc' : ServePc P)
    (s' : State P T) (hpc : pc ≠ .idle) (hnext : s.serveNext t = s') (hpost : s'.post = s.post)
    (hserve : s'.serve = Function.update s.serve t pc')
    (hrest : Alone s' t pc' → system.Repeats (.step t) (Served s₀) s') :
    system.Repeats (.step t) (Served s₀) s := by
  refine System.Repeats.step ?_ ?_
  · change s.serve t ≠ .idle
    rw [h.mine]
    exact hpc
  · change system.Repeats (.step t) (Served s₀) (s.serveNext t)
    rw [hnext]
    refine hrest ⟨fun p => ?_, ?_, fun t' hne => ?_⟩
    · rw [hpost]
      exact h.post p
    · rw [hserve]
      exact Function.update_self ..
    · rw [hserve, Function.update_of_ne hne]
      exact h.others t' hne

/-- The rest of a serve, from the slots that are still to be read: the marks that
    have changed are among theirs. -/
theorem scan_alone {s₀ : State P T} :
    ∀ (l : List P) (s : State P T) (p : Option P), Chain s.links p l →
      Alone s t (.scanning p) → (∀ q, s.mark q ≠ s.seen q → q ∈ l) → s.mark = s₀.mark →
      system.Repeats (.step t) (Served s₀) s := by
  intro l
  induction l with
  | nil =>
      intro s p hl halone hleft hmark
      rw [show p = none from hl] at halone
      let s₁ := s.setServe t .serving
      let s₂ : State P T :=
        { s₁.setServe t .unlocking with
          log := if s.batch = [] then s.log else s.log ++ [s.batch] }
      let s₃ : State P T := { s₂.setServe t .idle with busy := false }
      refine halone.step _ s₁ nofun (by rw [State.serveNext, halone.mine]) rfl rfl fun h₁ => ?_
      refine h₁.step _ s₂ nofun (by rw [State.serveNext, h₁.mine]; rfl) rfl rfl fun h₂ => ?_
      refine h₂.step .idle s₃ nofun (by rw [State.serveNext, h₂.mine]) rfl rfl fun h₃ => ?_
      refine System.repeats_none ⟨h₃.quiet, fun q => ?_, hmark⟩
      by_contra hq
      exact absurd (hleft q hq) List.not_mem_nil
  | cons slot l ih =>
      intro s p hl halone hleft hmark
      rcases hl with ⟨rfl, q, hq, hl⟩
      cases hq
      let s₁ : State P T :=
        { s.setServe t (.scanning (s.next slot)) with
          seen := Function.update s.seen slot
            (collect slot (s.mark slot) (s.seen slot) s.batch).1
          batch := (collect slot (s.mark slot) (s.seen slot) s.batch).2 }
      refine halone.step _ s₁ nofun (by rw [State.serveNext, halone.mine]) rfl rfl fun h₁ => ?_
      refine ih s₁ _ hl h₁ (fun q hq => ?_) hmark
      -- The mark of the slot has just been read.
      change s.mark q ≠ Function.update s.seen slot _ q at hq
      by_cases hqs : q = slot
      · rw [hqs, Function.update_self, collect_fst] at hq
        exact absurd rfl hq
      · rw [Function.update_of_ne hqs] at hq
        exact (List.mem_cons.mp (hleft q hq)).resolve_left hqs

omit [DecidableEq T] in
theorem Kept.quiet (h : Kept s) (hq : Quiet s) : Ledger s.mark s.seen s.log s.batch none := by
  refine h.booked.idle fun t l hl => ?_
  rw [hq.2 t] at hl
  exact hl

/-- A serve with nothing else going on reads every mark that has changed. -/
theorem serve_alone (hkept : Kept s) (hq : Quiet s) (t : T) :
    system.Repeats (.step t) (Served s)
      (s.setServe t (if s.busy = true then .idle else .trying)) := by
  have hfree : ¬ s.busy = true := by
    intro hx
    rcases hkept.locked.held hx with ⟨t', ht'⟩
    rw [hq.2 t'] at ht'
    exact ht'
  have h₀ : Alone (s.setServe t .trying) t .trying :=
    ⟨hq.1, Function.update_self .., fun t' hne =>
      (Function.update_of_ne hne ..).trans (hq.2 t')⟩
  rcases hkept.registered with ⟨l, hl⟩
  rw [if_neg hfree]
  let s₁ : State P T := { (s.setServe t .trying).setServe t .locked with busy := true }
  let s₂ : State P T := { s₁.setServe t (.scanning s.head) with batch := [] }
  refine h₀.step .locked s₁ nofun ?_ rfl rfl fun h₁ => ?_
  · rw [State.serveNext, h₀.mine]
    exact if_neg hfree
  refine h₁.step _ s₂ nofun (by rw [State.serveNext, h₁.mine]; rfl) rfl rfl fun h₂ => ?_
  refine scan_alone l s₂ s.head hl.chain h₂ (fun p hp => ?_) rfl
  -- Whoever has posted is on the list.
  refine (hl.known p).mp (hl.posted p fun hzero => hp ?_)
  have hle := (hkept.quiet hq).le p
  rw [hzero] at hle
  exact hzero.trans (Nat.le_zero.mp hle).symm

/-- The serves of the scanning delegator meet the contract. -/
theorem contract (h : system.Reachable s) : ServeContract posts s := by
  have hkept := kept_reachable h
  -- The ledger says that what was handed out is in order, and up to the marks read.
  rcases hkept.booked.ledger with ⟨rest, hledger⟩
  refine
    { once := hledger.once
      grows := hledger.grows
      made := fun t ht => hledger.made t (List.mem_append_left _ ht)
      covers := fun a p _ hreads n hpos hn => ?_
      settles := fun hq t => ?_ }
  · cases a with
    | post | postStep | serveNow | withLock => cases hreads
    | step t =>
        have hreads : (s.serve t).reads = some p := hreads
        cases hpc : s.serve t <;> rw [hpc] at hreads <;> cases hreads
        case scanning.refl =>
          rcases hkept.registered with ⟨l, hl⟩
          rcases hl.scans t _ hpc with ⟨m, hm, _⟩
          rcases hm.eq_cons with ⟨q, k, rfl, _, _⟩
          have hrest : Ledger s.mark s.seen s.log s.batch (some (p :: k)) := by
            refine hkept.booked.taken t _ ?_
            rw [hpc]
            exact hm
          have hnext : posts.system.next s (.step t) =
              { s.setServe t (.scanning (s.next p)) with
                seen := Function.update s.seen p (collect p (s.mark p) (s.seen p) s.batch).1
                batch := (collect p (s.mark p) (s.seen p) s.batch).2 } := by
            change s.serveNext t = _
            rw [State.serveNext, hpc]
          rw [hnext]
          refine hrest.collect.covers ?_ hpos hn
          rw [Function.update_self, collect_fst]
  · -- A serve with nothing else going on reads every mark.
    rcases serve_alone hkept hq t with ⟨n, hlegal, hquiet, hseen, hmark⟩
    have hrun : system.Legal s (posts.alone t n) := ⟨hq.2 t, hlegal⟩
    have hreach := system.reachableIf_run _ s h hrun (system.along_true _ _)
    refine ⟨n, hrun, hquiet, fun p => ⟨congrFun hmark p, ?_⟩⟩
    have hend := (kept_reachable hreach).quiet hquiet
    exact ((hend.served rfl).lastServed_eq p).trans
      ((hseen p).symm.trans (congrFun hmark p))

end

end Scan

end Post

end Cmpth

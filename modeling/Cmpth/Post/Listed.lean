import Cmpth.Core.TryLock
import Cmpth.Post.Queue

/-!
# No Post Is Lost

The flag of a slot says where the slot is: in the pending list, about to be put
there by its producer, or taken and not yet passed by the server. A mark that
the server has not read is therefore that of a slot the server is going to pass.

Whoever finds the list empty asks for a poll, and a poll that leaves something
in it asks again.

## Main definitions

* `Locked`: The server lock has one holder.
* `Listed`: The flags say where the slots are.
* `Noted`: A mark that has changed is going to be read.
* `Asked`: A poll has been requested, or is about to be.

## Theorems

* `ns_ne_never`: The time of a request is never `NEVER`.
* `Listed.holds_of_mem`, `Listed.draining_iff`, `drains_unique`: Who drains has the lock, and drains
  one list.
* `locked_update`: A thread takes the free lock, keeps it or gives it back.
* `Locked.congr`, `links_congr`: What the lock and the links depend on.
* `not_holds_returned`, `drains_returned`, `willAsk_returned`: A serve that has returned.
* `postNext_frame`: What a producer does is none of a server's business.
* `locked_next`, `listed_next`, `noted_next`, `asked_next`: Every step keeps them.
* `listed_serve`: A step of a server that leaves the slots alone.
* `listed_take`: The server takes the list.
* `listed_unlist`: The server clears the flag of the slot it has read the link of.
* `listed_post`: A step of a producer that neither lists its slot nor has begun to.
* `listed_swap`: A producer sets the flag of its slot, and goes on to list it if it was not set.
* `listed_link`: A producer links its slot to what it takes for the head of the list.
* `listed_list`: A producer lists its slot.
* `listed_postNext`: The next step of a post takes no slot from a server.
* `noted_serve`: A step of a server that reads no mark.
* `asked_serve`: A step of a server that ends no poll.
* `kept_init`, `kept_next`, `kept_reachable`: All of it holds in every state.
* `Kept.settled`: With no operation in flight, nobody is about to read a mark or to ask.
* `post_not_lost`: The delegator loses no post.
* `post_not_lost_postAgain`: After a post that the serve has just missed, the slot is in the list
  and a poll is due.
-/

namespace Cmpth

namespace Post

namespace Queue

open Duty (NEVER ns)

variable {P T : Type*}

/-- The producer is about to put its slot on the list. -/
def PostPc.Listing : PostPc P → Prop
  | .swapped | .loaded _ | .linked _ => True
  | .idle | .bumped | .asking => False

/-- The thread has the server lock. -/
def ServePc.Holds : ServePc P → Prop
  | .locked _ | .draining _ _ | .unlisting _ _ _ | .collecting _ _ _ | .serving _ | .unlocking _
    | .inside => True
  | .idle | .polling | .wanting _ | .trying _ | .checking | .asking | .spinning | .spinningTry =>
      False

/-- The slots the thread has taken and not yet passed. -/
def ServePc.Drains (next : P → Option (Option P)) (l : List P) : ServePc P → Prop
  | .draining _ p | .collecting _ _ p => Chain next p l
  | .unlisting _ slot p => ∃ m, l = slot :: m ∧ Chain next p m
  | _ => l = []

/-- The thread is about to read the mark of the slot. -/
def ServePc.Collects (p : P) : ServePc P → Prop
  | .collecting _ slot _ => slot = p
  | _ => False

/-- The thread runs the duty's poll, and looks at the list before it ends. -/
def ServePc.WillAsk : ServePc P → Prop
  | .polling | .checking | .asking => True
  | .wanting duty | .trying duty | .locked duty | .draining duty _ | .unlisting duty _ _
    | .collecting duty _ _ | .serving duty | .unlocking duty => duty = true
  | .idle | .spinning | .spinningTry | .inside => False

/-- The links of the slots, as a chain follows them. -/
def State.links (s : State P T) (p : P) : Option (Option P) :=
  some (s.nextPending p)

/-- The server lock has one holder. -/
def Locked (s : State P T) : Prop :=
  TryLock s.busy fun t => (s.serve t).Holds

/-- The flags say where the slots are: in the pending list `l`, about to be put
    there, or in the list `d` of a server. -/
structure Listed (s : State P T) (l : List P) (d : T → List P) : Prop where
  chain : Chain s.links s.pending l
  drains : ∀ t, (s.serve t).Drains s.links (d t)
  nodup : ∀ t, (d t).Nodup
  queued : ∀ p, s.queued p = true ↔ p ∈ l ∨ (s.post p).Listing ∨ ∃ t, p ∈ d t
  pending : ∀ p, p ∈ l → ¬ (s.post p).Listing ∧ ∀ t, p ∉ d t
  listing : ∀ p, (s.post p).Listing → ∀ t, p ∉ d t
  link : ∀ p h, s.post p = .linked h → s.nextPending p = h

/-- A mark that the server has not read is going to be read. -/
def Noted (s : State P T) : Prop :=
  ∀ p, s.mark p ≠ s.seen p →
    s.queued p = true ∨ s.post p = .bumped ∨ ∃ t, (s.serve t).Collects p

/-- While there is something on the list, a poll has been requested or is about
    to be. -/
def Asked (s : State P T) : Prop :=
  s.pending ≠ none →
    s.deadline ≠ NEVER ∨ (∃ p, s.post p = .asking) ∨ ∃ t, (s.serve t).WillAsk

/-- The time of a request is never `NEVER`. -/
theorem ns_ne_never (n : Nat) : ns n ≠ NEVER := by
  unfold ns NEVER
  omega

section

variable {s s' : State P T} {t : T}

theorem Listed.holds_of_mem {l : List P} {d : T → List P} (h : Listed s l d) {p : P}
    (hp : p ∈ d t) : (s.serve t).Holds := by
  have hd := h.drains t
  cases hpc : s.serve t <;> rw [hpc] at hd
  case draining | unlisting | collecting => trivial
  all_goals
    have hnil : d t = [] := hd
    rw [hnil] at hp
    exact absurd hp List.not_mem_nil

variable [DecidableEq T]

/-- A thread takes the free lock, keeps it or gives it back. -/
theorem locked_update {pc : ServePc P} (h : Locked s)
    (hserve : s'.serve = Function.update s.serve t pc)
    (hbusy : s'.busy = s.busy ∧ (pc.Holds ↔ (s.serve t).Holds) ∨
      s.busy = false ∧ s'.busy = true ∧ pc.Holds ∨
      (s.serve t).Holds ∧ ¬ pc.Holds ∧ s'.busy = false) : Locked s' := by
  refine TryLock.update h t (fun t' hne => ?_) ?_
  · rw [hserve, Function.update_of_ne hne]
  · rwa [hserve, Function.update_self]

omit [DecidableEq T] in
theorem Locked.congr (h : Locked s) (hserve : s'.serve = s.serve) (hbusy : s'.busy = s.busy) :
    Locked s' := by
  unfold Locked at h ⊢
  rwa [hserve, hbusy]

theorem not_holds_returned (duty : Bool) : ¬ (returned duty : ServePc P).Holds := by
  unfold returned
  split <;> exact id

variable [DecidableEq P] {latency : Nat}

omit [DecidableEq T] in
/-- What a producer does is none of a server's business. -/
theorem postNext_frame (latency : Nat) (s : State P T) (p : P) (now : Nat) (spurious : Bool) :
    (s.postNext latency p now spurious).serve = s.serve ∧
      (s.postNext latency p now spurious).busy = s.busy ∧
      (s.postNext latency p now spurious).seen = s.seen ∧
      (s.postNext latency p now spurious).mark = s.mark ∧
      (s.postNext latency p now spurious).log = s.log ∧
      (s.postNext latency p now spurious).batch = s.batch := by
  unfold State.postNext
  cases s.post p with
  | linked h =>
      dsimp only
      split <;> exact ⟨rfl, rfl, rfl, rfl, rfl, rfl⟩
  | idle | bumped | swapped | loaded | asking => exact ⟨rfl, rfl, rfl, rfl, rfl, rfl⟩

theorem locked_next (h : Locked s) {a : Action P T} (hg : guard s a) :
    Locked (next latency s a) := by
  -- A thread that has not the lock, and does not get it.
  have hout : ∀ {s' : State P T} {t : T} (pc : ServePc P),
      s'.serve = Function.update s.serve t pc → s'.busy = s.busy → ¬ (s.serve t).Holds →
      ¬ pc.Holds → Locked s' :=
    fun _ hserve hbusy ht hpc => locked_update h hserve (.inl ⟨hbusy, iff_of_false hpc ht⟩)
  -- Before the try for the lock a thread has nothing.
  have hlook : ∀ t duty, ¬ (s.serve t).Holds → Locked (s.look t duty) := by
    intro t duty ht
    refine hout _ rfl rfl ht ?_
    split
    · exact not_holds_returned duty
    · exact id
  have hidle : ∀ {t}, s.serve t = .idle → ¬ (s.serve t).Holds := by
    intro t ht
    rw [ht]
    exact id
  cases a with
  | post p => exact h.congr rfl rfl
  | postStep p now spurious =>
      have hf := postNext_frame latency s p now spurious
      exact h.congr hf.1 hf.2.1
  | poll t => exact hout .polling rfl rfl (hidle hg) id
  | serveNow t => exact hlook t false (hidle hg)
  | withLock t => exact hout .spinning rfl rfl (hidle hg) id
  | step t now =>
      change Locked (s.serveNext latency t now)
      have hno : ∀ {pc}, s.serve t = pc → ¬ pc.Holds → ¬ (s.serve t).Holds := by
        rintro pc rfl hx
        exact hx
      unfold State.serveNext
      -- Who has the lock keeps it over all it does until `unlocking`.
      cases hpc : s.serve t with
      | idle => exact h
      | polling => exact hlook t true (hno hpc id)
      | wanting duty =>
          refine hout _ rfl rfl (hno hpc id) ?_
          split
          · exact not_holds_returned duty
          · exact id
      | trying duty =>
          dsimp only
          split
          · exact hout _ rfl rfl (hno hpc id) (not_holds_returned duty)
          · next hb => exact locked_update h rfl (.inr (.inl ⟨by simpa using hb, rfl, trivial⟩))
      | locked duty | unlisting duty slot p | collecting duty slot p | serving duty =>
          exact locked_update h rfl (.inl ⟨rfl, by rw [hpc]; exact Iff.rfl⟩)
      | draining duty p =>
          cases p with
          | none => exact locked_update h rfl (.inl ⟨rfl, by rw [hpc]; exact Iff.rfl⟩)
          | some slot => exact locked_update h rfl (.inl ⟨rfl, by rw [hpc]; exact Iff.rfl⟩)
      | unlocking duty =>
          exact locked_update h rfl
            (.inr (.inr ⟨by rw [hpc]; trivial, not_holds_returned duty, rfl⟩))
      | checking =>
          refine hout _ rfl rfl (hno hpc id) ?_
          split <;> exact id
      | asking => exact hout .idle rfl rfl (hno hpc id) id
      | spinning =>
          refine hout _ rfl rfl (hno hpc id) ?_
          split <;> exact id
      | spinningTry =>
          dsimp only
          split
          · exact hout .spinning rfl rfl (hno hpc id) id
          · next hb => exact locked_update h rfl (.inr (.inl ⟨by simpa using hb, rfl, trivial⟩))
      | inside => exact locked_update h rfl (.inr (.inr ⟨by rw [hpc]; trivial, id, rfl⟩))

omit [DecidableEq T] [DecidableEq P] in
theorem links_congr (hnext : s'.nextPending = s.nextPending) : s'.links = s.links := by
  funext p
  rw [State.links, hnext]
  rfl

omit [DecidableEq P] in
/-- A step of a server that leaves the slots alone. -/
theorem listed_serve (pc : ServePc P) {l : List P} {d : T → List P} (h : Listed s l d)
    (hserve : s'.serve = Function.update s.serve t pc) (hpost : s'.post = s.post)
    (hqueued : s'.queued = s.queued) (hnext : s'.nextPending = s.nextPending)
    (hpending : s'.pending = s.pending) (hdrains : pc.Drains s.links (d t)) : Listed s' l d := by
  -- The links are those of before; only this thread is elsewhere.
  have hlinks := links_congr hnext
  refine
    { chain := by rw [hlinks, hpending]; exact h.chain
      drains := fun t' => ?_
      nodup := h.nodup
      queued := by rw [hqueued, hpost]; exact h.queued
      pending := by rw [hpost]; exact h.pending
      listing := by rw [hpost]; exact h.listing
      link := by rw [hpost, hnext]; exact h.link }
  rw [hlinks, hserve]
  by_cases hne : t' = t
  · rw [hne, Function.update_self]
    exact hdrains
  · rw [Function.update_of_ne hne]
    exact h.drains t'

omit [DecidableEq P] in
theorem drains_returned {next : P → Option (Option P)} {l : List P} (duty : Bool) (hl : l = []) :
    (returned duty : ServePc P).Drains next l := by
  unfold returned
  split <;> exact hl

omit [DecidableEq P] in
/-- The server takes the list. -/
theorem listed_take {l : List P} {d : T → List P} (h : Listed s l d) {duty : Bool}
    (hpc : s.serve t = .locked duty)
    (hserve : s'.serve = Function.update s.serve t (.draining duty s.pending))
    (hpost : s'.post = s.post) (hqueued : s'.queued = s.queued)
    (hnext : s'.nextPending = s.nextPending) (hpending : s'.pending = none) :
    Listed s' [] (Function.update d t l) := by
  have hlinks := links_congr hnext
  have hempty : d t = [] := by
    have hd := h.drains t
    rw [hpc] at hd
    exact hd
  -- The slots of `l` move to the server, which had none.
  have hmem : ∀ p, (∃ t', p ∈ Function.update d t l t') ↔ p ∈ l ∨ ∃ t', p ∈ d t' := by
    intro p
    constructor
    · rintro ⟨t', ht'⟩
      by_cases hne : t' = t
      · rw [hne, Function.update_self] at ht'
        exact .inl ht'
      · rw [Function.update_of_ne hne] at ht'
        exact .inr ⟨t', ht'⟩
    · rintro (hl | ⟨t', ht'⟩)
      · exact ⟨t, by rw [Function.update_self]; exact hl⟩
      · have hne : t' ≠ t := by
          rintro rfl
          rw [hempty] at ht'
          exact absurd ht' List.not_mem_nil
        exact ⟨t', by rw [Function.update_of_ne hne]; exact ht'⟩
  refine
    { chain := hpending
      drains := fun t' => ?_
      nodup := fun t' => ?_
      queued := fun p => ?_
      pending := fun p hp => absurd hp List.not_mem_nil
      listing := fun p hp t' ht' => ?_
      link := by rw [hpost, hnext]; exact h.link }
  · rw [hlinks, hserve]
    by_cases hne : t' = t
    · rw [hne, Function.update_self, Function.update_self]
      exact h.chain
    · rw [Function.update_of_ne hne, Function.update_of_ne hne]
      exact h.drains t'
  · by_cases hne : t' = t
    · rw [hne, Function.update_self]
      exact h.chain.nodup
    · rw [Function.update_of_ne hne]
      exact h.nodup t'
  · -- A slot is flagged as long as it is on the list or being drained.
    rw [hqueued, hpost, h.queued p, hmem p]
    constructor
    · rintro (hx | hx | hx)
      · exact .inr (.inr (.inl hx))
      · exact .inr (.inl hx)
      · exact .inr (.inr (.inr hx))
    · rintro (hx | hx | hx | hx)
      · exact absurd hx List.not_mem_nil
      · exact .inr (.inl hx)
      · exact .inl hx
      · exact .inr (.inr hx)
  · rw [hpost] at hp
    rcases (hmem p).mp ⟨t', ht'⟩ with hx | ⟨t'', hx⟩
    · exact (h.pending p hx).1 hp
    · exact h.listing p hp t'' hx

/-- The server clears the flag of the slot it has read the link of. -/
theorem listed_unlist {l : List P} {d : T → List P} (h : Listed s l d) (hlock : Locked s)
    {duty : Bool} {slot : P} {p : Option P} (hpc : s.serve t = .unlisting duty slot p)
    (hserve : s'.serve = Function.update s.serve t (.collecting duty slot p))
    (hpost : s'.post = s.post) (hqueued : s'.queued = Function.update s.queued slot false)
    (hnext : s'.nextPending = s.nextPending) (hpending : s'.pending = s.pending) :
    ∃ d', Listed s' l d' := by
  have hlinks := links_congr hnext
  -- The slot is the first of those that this thread drains.
  have hd := h.drains t
  rw [hpc] at hd
  rcases hd with ⟨m, hm, hchain⟩
  have hslot : slot ∈ d t := by
    rw [hm]
    exact List.mem_cons_self
  have hnot : slot ∉ m := by
    have hn := h.nodup t
    rw [hm] at hn
    exact (List.nodup_cons.mp hn).1
  -- Nobody else has the lock, so nobody else has taken a slot.
  have honly : ∀ t' q, q ∈ d t' → t' = t := fun t' q hq =>
    hlock.one t' t (h.holds_of_mem hq) (h.holds_of_mem hslot)
  have hmem : ∀ q, (∃ t', q ∈ Function.update d t m t') ↔ q ≠ slot ∧ ∃ t', q ∈ d t' := by
    intro q
    constructor
    · rintro ⟨t', ht'⟩
      by_cases hne : t' = t
      · rw [hne, Function.update_self] at ht'
        refine ⟨?_, t, by rw [hm]; exact List.mem_cons_of_mem _ ht'⟩
        rintro rfl
        exact hnot ht'
      · rw [Function.update_of_ne hne] at ht'
        exact absurd (honly t' q ht') hne
    · rintro ⟨hq, t', ht'⟩
      rw [honly t' q ht', hm] at ht'
      refine ⟨t, ?_⟩
      rw [Function.update_self]
      exact (List.mem_cons.mp ht').resolve_left hq
  refine ⟨Function.update d t m,
    { chain := by rw [hlinks, hpending]; exact h.chain
      drains := fun t' => ?_
      nodup := fun t' => ?_
      queued := fun q => ?_
      pending := fun q hq => ?_
      listing := fun q hq t' ht' => ?_
      link := by rw [hpost, hnext]; exact h.link }⟩
  · rw [hlinks, hserve]
    by_cases hne : t' = t
    · rw [hne, Function.update_self, Function.update_self]
      exact hchain
    · rw [Function.update_of_ne hne, Function.update_of_ne hne]
      exact h.drains t'
  · by_cases hne : t' = t
    · rw [hne, Function.update_self]
      have hn := h.nodup t
      rw [hm] at hn
      exact (List.nodup_cons.mp hn).2
    · rw [Function.update_of_ne hne]
      exact h.nodup t'
  · rw [hqueued, hpost, hmem q]
    -- The slot's flag is lowered, and it is drained no more.
    by_cases hq : q = slot
    · rw [hq, Function.update_self]
      refine ⟨nofun, ?_⟩
      rintro (hx | hx | hx)
      · exact absurd hslot ((h.pending slot hx).2 t)
      · exact absurd hslot (h.listing slot hx t)
      · exact absurd rfl hx.1
    · rw [Function.update_of_ne hq, h.queued q]
      constructor
      · rintro (hx | hx | hx)
        · exact .inl hx
        · exact .inr (.inl hx)
        · exact .inr (.inr ⟨hq, hx⟩)
      · rintro (hx | hx | hx)
        · exact .inl hx
        · exact .inr (.inl hx)
        · exact .inr (.inr hx.2)
  · rw [hpost]
    refine ⟨(h.pending q hq).1, fun t' ht' => ?_⟩
    rcases (hmem q).mp ⟨t', ht'⟩ with ⟨_, t'', hx⟩
    exact (h.pending q hq).2 t'' hx
  · rw [hpost] at hq
    rcases (hmem q).mp ⟨t', ht'⟩ with ⟨_, t'', hx⟩
    exact h.listing q hq t'' hx

omit [DecidableEq T] in
/-- A step of a producer that neither lists its slot nor has begun to. -/
theorem listed_post (pc' : PostPc P) {l : List P} {d : T → List P} (h : Listed s l d) {p : P}
    (hpost : s'.post = Function.update s.post p pc') (hserve : s'.serve = s.serve)
    (hqueued : s'.queued = s.queued) (hnext : s'.nextPending = s.nextPending)
    (hpending : s'.pending = s.pending) (hlisting : pc'.Listing ↔ (s.post p).Listing)
    (hlink : ∀ h', pc' ≠ .linked h') : Listed s' l d := by
  -- It does not list, before or after: the others are as they were.
  have hsame : ∀ q, (s'.post q).Listing ↔ (s.post q).Listing := by
    intro q
    rw [hpost]
    by_cases hq : q = p
    · rw [hq, Function.update_self]
      exact hlisting
    · rw [Function.update_of_ne hq]
  refine
    { chain := by rw [links_congr hnext, hpending]; exact h.chain
      drains := fun t => by rw [links_congr hnext, hserve]; exact h.drains t
      nodup := h.nodup
      queued := fun q => by rw [hqueued, hsame]; exact h.queued q
      pending := fun q hq => by rw [hsame]; exact h.pending q hq
      listing := fun q hq => h.listing q ((hsame q).mp hq)
      link := fun q h' hq => ?_ }
  rw [hpost] at hq
  rw [hnext]
  by_cases hqp : q = p
  · rw [hqp, Function.update_self] at hq
    exact absurd hq (hlink h')
  · rw [Function.update_of_ne hqp] at hq
    exact h.link q h' hq

omit [DecidableEq T] in
/-- A producer sets the flag of its slot, and goes on to list it if it was not
    set. -/
theorem listed_swap {l : List P} {d : T → List P} (h : Listed s l d) {p : P}
    (hpc : s.post p = .bumped) :
    Listed
      { s.setPost p (if s.queued p = true then .idle else .swapped) with
        queued := Function.update s.queued p true } l d := by
  by_cases hq : s.queued p = true
  · rw [if_pos hq]
    refine listed_post _ h rfl rfl ?_ rfl rfl ?_ nofun
    · exact (congrArg _ hq.symm).trans (Function.update_eq_self ..)
    · rw [hpc]
      exact Iff.rfl
  · rw [if_neg hq]
    -- A slot whose flag is clear is nowhere.
    have hnowhere : p ∉ l ∧ ∀ t, p ∉ d t := by
      refine ⟨fun hx => hq ((h.queued p).mpr (.inl hx)), fun t hx => ?_⟩
      exact hq ((h.queued p).mpr (.inr (.inr ⟨t, hx⟩)))
    have hself : Function.update s.post p .swapped p = .swapped := Function.update_self ..
    have hother : ∀ q, q ≠ p → Function.update s.post p .swapped q = s.post q :=
      fun q hne => Function.update_of_ne hne ..
    refine
      { chain := h.chain
        drains := h.drains
        nodup := h.nodup
        queued := fun q => ?_
        pending := fun q hql => ?_
        listing := fun q hql => ?_
        link := fun q h' hql => ?_ }
    · change Function.update s.queued p true q = true ↔
        q ∈ l ∨ (Function.update s.post p .swapped q).Listing ∨ ∃ t, q ∈ d t
      by_cases hne : q = p
      · rw [hne, Function.update_self, hself]
        exact ⟨fun _ => .inr (.inl trivial), fun _ => rfl⟩
      · rw [Function.update_of_ne hne, hother q hne]
        exact h.queued q
    · have hne : q ≠ p := by
        rintro rfl
        exact hnowhere.1 hql
      change ¬ (Function.update s.post p .swapped q).Listing ∧ _
      rw [hother q hne]
      exact h.pending q hql
    · by_cases hne : q = p
      · rw [hne]
        exact hnowhere.2
      · change (Function.update s.post p .swapped q).Listing at hql
        rw [hother q hne] at hql
        exact h.listing q hql
    · change Function.update s.post p .swapped q = _ at hql
      by_cases hne : q = p
      · rw [hne, hself] at hql
        cases hql
      · rw [hother q hne] at hql
        exact h.link q h' hql

omit [DecidableEq T] in
/-- A producer links its slot to what it takes for the head of the list. -/
theorem listed_link {l : List P} {d : T → List P} (h : Listed s l d) {p : P} {head : Option P}
    (hpc : s.post p = .loaded head) :
    Listed
      { s.setPost p (.linked head) with
        nextPending := Function.update s.nextPending p head } l d := by
  have hlisting : (s.post p).Listing := by
    rw [hpc]
    trivial
  -- The slot is being listed, so it is neither on the list nor being drained.
  have hnowhere : p ∉ l ∧ ∀ t, p ∉ d t :=
    ⟨fun hx => (h.pending p hx).1 hlisting, h.listing p hlisting⟩
  have hlinks : State.links
      { s.setPost p (.linked head) with
        nextPending := Function.update s.nextPending p head } =
      Function.update s.links p (some head) := by
    funext q
    by_cases hq : q = p
    · rw [hq, Function.update_self]
      exact congrArg some (Function.update_self ..)
    · rw [Function.update_of_ne hq]
      exact congrArg some (Function.update_of_ne hq ..)
  have hsame : ∀ q, (Function.update s.post p (.linked head) q).Listing ↔ (s.post q).Listing := by
    intro q
    by_cases hq : q = p
    · rw [hq, Function.update_self]
      exact iff_of_true trivial hlisting
    · rw [Function.update_of_ne hq]
  refine
    { chain := by rw [hlinks]; exact h.chain.update hnowhere.1
      drains := fun t => ?_
      nodup := h.nodup
      queued := fun q => (h.queued q).trans (or_congr_right (or_congr_left (hsame q).symm))
      pending := fun q hq => ⟨fun hx => (h.pending q hq).1 ((hsame q).mp hx), (h.pending q hq).2⟩
      listing := fun q hq => h.listing q ((hsame q).mp hq)
      link := fun q h' hq => ?_ }
  · rw [hlinks]
    have hd := h.drains t
    change (s.serve t).Drains _ _
    have hnot := hnowhere.2 t
    -- A server reads links of slots that it drains, and this is not one.
    cases hs : s.serve t <;> rw [hs] at hd
    case draining | collecting => exact Chain.update hd hnot
    case unlisting =>
      rcases hd with ⟨m, hm, hchain⟩
      refine ⟨m, hm, hchain.update fun hx => hnot ?_⟩
      rw [hm]
      exact List.mem_cons_of_mem _ hx
    all_goals exact hd
  · change Function.update s.post p _ q = _ at hq
    change Function.update s.nextPending p head q = h'
    by_cases hqp : q = p
    · rw [hqp, Function.update_self] at hq ⊢
      cases hq
      rfl
    · rw [Function.update_of_ne hqp] at hq ⊢
      exact h.link q h' hq

omit [DecidableEq T] in
/-- A producer lists its slot. -/
theorem listed_list {l : List P} {d : T → List P} (h : Listed s l d) {p : P} {head : Option P}
    (hpc : s.post p = .linked head) (hhead : s.pending = head) {pc' : PostPc P}
    (hnot : ¬ pc'.Listing) :
    Listed { s.setPost p pc' with pending := some p } (p :: l) d := by
  have hlisting : (s.post p).Listing := by
    rw [hpc]
    trivial
  -- The slot was nowhere, and is now the head of the list.
  have hnowhere : p ∉ l ∧ ∀ t, p ∉ d t :=
    ⟨fun hx => (h.pending p hx).1 hlisting, h.listing p hlisting⟩
  have hself : Function.update s.post p pc' p = pc' := Function.update_self ..
  have hother : ∀ q, q ≠ p → Function.update s.post p pc' q = s.post q :=
    fun q hne => Function.update_of_ne hne ..
  refine
    { chain := ⟨rfl, head, congrArg some (h.link p head hpc), hhead ▸ h.chain⟩
      drains := h.drains
      nodup := h.nodup
      queued := fun q => ?_
      pending := fun q hq => ?_
      listing := fun q hq => ?_
      link := fun q h' hq => ?_ }
  · refine (h.queued q).trans ?_
    change _ ↔ q ∈ p :: l ∨ (Function.update s.post p pc' q).Listing ∨ _
    by_cases hq : q = p
    · rw [hq, hself]
      exact iff_of_true (.inr (.inl hlisting)) (.inl List.mem_cons_self)
    · -- The others are on the list as before.
      rw [hother q hq, List.mem_cons]
      simp only [hq, false_or]
  · change ¬ (Function.update s.post p pc' q).Listing ∧ _
    by_cases hqp : q = p
    · rw [hqp, hself]
      exact ⟨hnot, hnowhere.2⟩
    · rw [hother q hqp]
      exact h.pending q ((List.mem_cons.mp hq).resolve_left hqp)
  · change (Function.update s.post p pc' q).Listing at hq
    by_cases hqp : q = p
    · rw [hqp, hself] at hq
      exact absurd hq hnot
    · rw [hother q hqp] at hq
      exact h.listing q hq
  · change Function.update s.post p pc' q = _ at hq
    by_cases hqp : q = p
    · rw [hqp, hself] at hq
      exact absurd (hq ▸ trivial) hnot
    · rw [hother q hqp] at hq
      exact h.link q h' hq

omit [DecidableEq T] in
/-- The next step of a post takes no slot from a server. -/
theorem listed_postNext (latency : Nat) {l : List P} {d : T → List P} (h : Listed s l d) (p : P)
    (now : Nat) (spurious : Bool) : ∃ l', Listed (s.postNext latency p now spurious) l' d := by
  unfold State.postNext
  -- The steps that touch the list are the swap and the link.
  cases hpc : s.post p with
  | idle => exact ⟨l, h⟩
  | bumped => exact ⟨l, listed_swap h hpc⟩
  | swapped =>
      refine ⟨l, listed_post _ h rfl rfl rfl rfl rfl ?_ nofun⟩
      rw [hpc]
      exact Iff.rfl
  | loaded head => exact ⟨l, listed_link h hpc⟩
  | linked head =>
      dsimp only
      split
      · next hx =>
          refine ⟨p :: l, listed_list h hpc hx.1 ?_⟩
          split <;> exact id
      · refine ⟨l, listed_post _ h rfl rfl rfl rfl rfl ?_ nofun⟩
        rw [hpc]
        exact Iff.rfl
  | asking =>
      refine ⟨l, listed_post .idle h rfl rfl rfl rfl rfl ?_ nofun⟩
      rw [hpc]
      exact Iff.rfl

/-- Every step leaves the flags true. -/
theorem listed_next {l : List P} {d : T → List P} (h : Listed s l d) (hlock : Locked s)
    {a : Action P T} (hg : guard s a) : ∃ l' d', Listed (next latency s a) l' d' := by
  -- A thread that is not serving drains nothing.
  have hidle : ∀ t, s.serve t = .idle → d t = [] := by
    intro t ht
    have hmine := h.drains t
    rw [ht] at hmine
    exact hmine
  have hlook : ∀ t duty, d t = [] → Listed (s.look t duty) l d := by
    intro t duty hempty
    refine listed_serve _ h rfl rfl rfl rfl rfl ?_
    split
    · exact drains_returned duty hempty
    · exact hempty
  -- The producer's steps move slots to the list, the server's steps take them off it.
  cases a with
  | post p =>
      have hg : s.post p = .idle := hg
      refine ⟨l, d, listed_post .bumped h rfl rfl rfl rfl rfl ?_ nofun⟩
      rw [hg]
      exact Iff.rfl
  | postStep p now spurious =>
      rcases listed_postNext latency h p now spurious with ⟨l', h'⟩
      exact ⟨l', d, h'⟩
  | poll t => exact ⟨l, d, listed_serve .polling h rfl rfl rfl rfl rfl (hidle t hg)⟩
  | serveNow t => exact ⟨l, d, hlook t false (hidle t hg)⟩
  | withLock t => exact ⟨l, d, listed_serve .spinning h rfl rfl rfl rfl rfl (hidle t hg)⟩
  | step t now =>
      change ∃ l' d', Listed (s.serveNext latency t now) l' d'
      have hmine := h.drains t
      unfold State.serveNext
      cases hpc : s.serve t <;> rw [hpc] at hmine
      case idle => exact ⟨l, d, h⟩
      case polling => exact ⟨l, d, hlook t true hmine⟩
      case wanting duty =>
        refine ⟨l, d, listed_serve _ h rfl rfl rfl rfl rfl ?_⟩
        split
        · exact drains_returned duty hmine
        · exact hmine
      case trying duty =>
        dsimp only
        split
        · exact ⟨l, d, listed_serve _ h rfl rfl rfl rfl rfl (drains_returned duty hmine)⟩
        · exact ⟨l, d, listed_serve (.locked duty) h rfl rfl rfl rfl rfl hmine⟩
      case locked duty => exact ⟨_, _, listed_take h hpc rfl rfl rfl rfl rfl⟩
      case draining duty p =>
        cases p with
        | none =>
            have hempty : d t = [] := Chain.eq_nil hmine
            exact ⟨l, d, listed_serve (.serving duty) h rfl rfl rfl rfl rfl hempty⟩
        | some slot =>
            refine ⟨l, d, listed_serve _ h rfl rfl rfl rfl rfl ?_⟩
            rcases Chain.eq_cons hmine with ⟨q, m, hm, hq, hrest⟩
            cases hq
            exact ⟨m, hm, hrest⟩
      case unlisting duty slot p =>
        have hx : ∃ d', Listed
            { s.setServe t (.collecting duty slot p) with
              queued := Function.update s.queued slot false } l d' :=
          listed_unlist h hlock hpc rfl rfl rfl rfl rfl
        rcases hx with ⟨d', h'⟩
        exact ⟨l, d', h'⟩
      case collecting duty slot p =>
        exact ⟨l, d, listed_serve (.draining duty p) h rfl rfl rfl rfl rfl hmine⟩
      case serving duty =>
        exact ⟨l, d, listed_serve (.unlocking duty) h rfl rfl rfl rfl rfl hmine⟩
      case unlocking duty =>
        exact ⟨l, d, listed_serve _ h rfl rfl rfl rfl rfl (drains_returned duty hmine)⟩
      case checking =>
        refine ⟨l, d, listed_serve _ h rfl rfl rfl rfl rfl ?_⟩
        split <;> exact hmine
      case spinning =>
        refine ⟨l, d, listed_serve _ h rfl rfl rfl rfl rfl ?_⟩
        split <;> exact hmine
      case spinningTry =>
        dsimp only
        split
        · exact ⟨l, d, listed_serve .spinning h rfl rfl rfl rfl rfl hmine⟩
        · exact ⟨l, d, listed_serve .inside h rfl rfl rfl rfl rfl hmine⟩
      case asking | inside =>
        exact ⟨l, d, listed_serve .idle h rfl rfl rfl rfl rfl hmine⟩

omit [DecidableEq P] in
/-- A step of a server that reads no mark. -/
theorem noted_serve (pc : ServePc P) (h : Noted s)
    (hserve : s'.serve = Function.update s.serve t pc) (hpost : s'.post = s.post)
    (hqueued : s'.queued = s.queued) (hmark : s'.mark = s.mark)
    (hseen : s'.seen = s.seen) (hnot : ∀ p, ¬ (s.serve t).Collects p) : Noted s' := by
  intro p hp
  rw [hmark, hseen] at hp
  rw [hqueued, hpost, hserve]
  rcases h p hp with hx | hx | ⟨t', hx⟩
  · exact .inl hx
  · exact .inr (.inl hx)
  · have hne : t' ≠ t := by
      rintro rfl
      exact hnot p hx
    refine .inr (.inr ⟨t', ?_⟩)
    rw [Function.update_of_ne hne]
    exact hx

/-- Every step leaves the marks noted. -/
theorem noted_next (h : Noted s) {a : Action P T} (hg : guard s a) :
    Noted (next latency s a) := by
  have hidle : ∀ t, s.serve t = .idle → ∀ p, ¬ (s.serve t).Collects p := by
    intro t ht p
    rw [ht]
    exact id
  -- A mark that is bumped is flagged; the server reads it after it has cleared the flag.
  cases a with
  | post p =>
      intro q hq
      by_cases hqp : q = p
      · rw [hqp]
        exact .inr (.inl (Function.update_self ..))
      · have hmark : (next latency s (.post p : Action P T)).mark q = s.mark q :=
          Function.update_of_ne hqp ..
        rw [hmark] at hq
        rcases h q hq with hx | hx | hx
        · exact .inl hx
        · exact .inr (.inl ((Function.update_of_ne hqp ..).trans hx))
        · exact .inr (.inr hx)
  | postStep p now spurious =>
      change Noted (s.postNext latency p now spurious)
      -- The flag of the slot is set by the step after the mark, and stays.
      have hkeep : ∀ {s' : State P T} (pc : PostPc P), s'.post = Function.update s.post p pc →
          s'.serve = s.serve → s'.mark = s.mark → s'.seen = s.seen →
          (∀ q, s.queued q = true → s'.queued q = true) →
          (s.post p = .bumped → s'.queued p = true) → Noted s' := by
        intro s' pc hpost hserve hmark hseen hqueued hset q hq
        rw [hmark, hseen] at hq
        rw [hpost, hserve]
        rcases h q hq with hx | hx | hx
        · exact .inl (hqueued q hx)
        · by_cases hqp : q = p
          · rw [hqp] at hx ⊢
            exact .inl (hset hx)
          · exact .inr (.inl ((Function.update_of_ne hqp ..).trans hx))
        · exact .inr (.inr hx)
      unfold State.postNext
      cases hpc : s.post p with
      | idle => exact h
      | bumped =>
          refine hkeep _ rfl rfl rfl rfl (fun q hq => ?_) fun _ => Function.update_self ..
          change Function.update s.queued p true q = true
          by_cases hqp : q = p
          · rw [hqp, Function.update_self]
          · rw [Function.update_of_ne hqp]
            exact hq
      | swapped | loaded | asking =>
          exact hkeep _ rfl rfl rfl rfl (fun _ hq => hq) fun hx => by rw [hpc] at hx; cases hx
      | linked head =>
          dsimp only
          split <;>
            exact hkeep _ rfl rfl rfl rfl (fun _ hq => hq) fun hx => by rw [hpc] at hx; cases hx
  | poll t => exact noted_serve .polling h rfl rfl rfl rfl rfl (hidle t hg)
  | serveNow t => exact noted_serve _ h rfl rfl rfl rfl rfl (hidle t hg)
  | withLock t => exact noted_serve .spinning h rfl rfl rfl rfl rfl (hidle t hg)
  | step t now =>
      change Noted (s.serveNext latency t now)
      have hnot : ∀ pc, s.serve t = pc → (∀ p, ¬ pc.Collects p) →
          ∀ p, ¬ (s.serve t).Collects p := by
        rintro pc rfl hx
        exact hx
      unfold State.serveNext
      cases hpc : s.serve t with
      | unlisting duty slot p =>
          intro q hq
          by_cases hqs : q = slot
          · -- The flag is clear, but the mark is read next.
            refine .inr (.inr ⟨t, ?_⟩)
            change (Function.update s.serve t (.collecting duty slot p) t).Collects q
            rw [Function.update_self]
            exact hqs.symm
          · rcases h q hq with hx | hx | ⟨t', hx⟩
            · exact .inl ((Function.update_of_ne hqs ..).trans hx)
            · exact .inr (.inl hx)
            · have hne : t' ≠ t := by
                rintro rfl
                rw [hpc] at hx
                exact hx
              refine .inr (.inr ⟨t', ?_⟩)
              change (Function.update s.serve t (.collecting duty slot p) t').Collects q
              rw [Function.update_of_ne hne]
              exact hx
      | collecting duty slot p =>
          intro q hq
          change s.mark q ≠ Function.update s.seen slot _ q at hq
          by_cases hqs : q = slot
          · rw [hqs, Function.update_self, collect_fst] at hq
            exact absurd rfl hq
          · rw [Function.update_of_ne hqs] at hq
            rcases h q hq with hx | hx | ⟨t', hx⟩
            · exact .inl hx
            · exact .inr (.inl hx)
            · have hne : t' ≠ t := by
                rintro rfl
                rw [hpc] at hx
                exact hqs hx.symm
              refine .inr (.inr ⟨t', ?_⟩)
              change (Function.update s.serve t (.draining duty p) t').Collects q
              rw [Function.update_of_ne hne]
              exact hx
      | draining duty p =>
          cases p with
          | none => exact noted_serve _ h rfl rfl rfl rfl rfl (hnot _ hpc fun _ => id)
          | some slot => exact noted_serve _ h rfl rfl rfl rfl rfl (hnot _ hpc fun _ => id)
      | trying duty | spinningTry =>
          dsimp only
          split <;> exact noted_serve _ h rfl rfl rfl rfl rfl (hnot _ hpc fun _ => id)
      | idle => exact h
      | polling | wanting | locked | serving | unlocking | checking | asking | spinning | inside =>
          exact noted_serve _ h rfl rfl rfl rfl rfl (hnot _ hpc fun _ => id)

omit [DecidableEq P] in
/-- A step of a server that ends no poll. -/
theorem asked_serve (pc : ServePc P) (h : Asked s)
    (hserve : s'.serve = Function.update s.serve t pc) (hpost : s'.post = s.post)
    (hpending : s'.pending ≠ none → s.pending ≠ none)
    (hdeadline : s'.deadline = s.deadline ∨ s'.deadline ≠ NEVER ∨ pc.WillAsk)
    (hask : (s.serve t).WillAsk → pc.WillAsk ∨ s'.pending = none ∨ s'.deadline ≠ NEVER) :
    Asked s' := by
  intro hp
  have hself : s'.serve t = pc := by
    rw [hserve]
    exact Function.update_self ..
  rw [hpost]
  -- What answers for the work that is pending: the deadline, a producer, or a server.
  rcases h (hpending hp) with hx | hx | ⟨t', hx⟩
  · rcases hdeadline with hd | hd | hd
    · exact .inl (by rw [hd]; exact hx)
    · exact .inl hd
    · exact .inr (.inr ⟨t, by rw [hself]; exact hd⟩)
  · exact .inr (.inl hx)
  · by_cases hne : t' = t
    · rw [hne] at hx
      rcases hask hx with hy | hy | hy
      · exact .inr (.inr ⟨t, by rw [hself]; exact hy⟩)
      · exact absurd hy hp
      · exact .inl hy
    · refine .inr (.inr ⟨t', ?_⟩)
      rw [hserve, Function.update_of_ne hne]
      exact hx

omit [DecidableEq P] in
theorem willAsk_returned {duty : Bool} (h : duty = true) : (returned duty : ServePc P).WillAsk := by
  rw [h]
  trivial

/-- Every step leaves a poll requested while there is something on the list. -/
theorem asked_next (h : Asked s) {a : Action P T} (hg : guard s a) : Asked (next latency s a) := by
  have hidle : ∀ {t pc}, s.serve t = .idle → (s.serve t).WillAsk →
      (pc : ServePc P).WillAsk ∨ (s.pending = none ∨ s.deadline ≠ NEVER) := by
    intro t pc ht hx
    rw [ht] at hx
    exact hx.elim
  -- Who lists its slot in an empty list asks for a poll, and a poll that leaves work behind asks
  -- for another.
  cases a with
  | post p =>
      have hg : s.post p = .idle := hg
      intro hp
      rcases h hp with hx | ⟨q, hx⟩ | hx
      · exact .inl hx
      · have hne : q ≠ p := by
          rintro rfl
          rw [hg] at hx
          cases hx
        exact .inr (.inl ⟨q, (Function.update_of_ne hne ..).trans hx⟩)
      · exact .inr (.inr hx)
  | postStep p now spurious =>
      change Asked (s.postNext latency p now spurious)
      have hkeep : ∀ {s' : State P T} (pc : PostPc P), s'.post = Function.update s.post p pc →
          s'.serve = s.serve → s'.deadline = s.deadline → s.post p ≠ .asking →
          (s'.pending ≠ none → s.pending ≠ none) → Asked s' := by
        intro s' pc hpost hserve hdeadline hne hpending hp
        rw [hdeadline, hpost, hserve]
        rcases h (hpending hp) with hx | ⟨q, hx⟩ | hx
        · exact .inl hx
        · have hqp : q ≠ p := by
            rintro rfl
            exact hne hx
          exact .inr (.inl ⟨q, (Function.update_of_ne hqp ..).trans hx⟩)
        · exact .inr (.inr hx)
      unfold State.postNext
      cases hpc : s.post p with
      | idle => exact h
      | bumped | swapped | loaded =>
          exact hkeep _ rfl rfl rfl (by rw [hpc]; nofun) id
      | linked head =>
          dsimp only
          split
          · next hx =>
              -- Whoever finds the list empty asks.
              by_cases hnone : head = none
              · rw [if_pos hnone]
                exact fun _ => .inr (.inl ⟨p, Function.update_self ..⟩)
              · exact hkeep _ rfl rfl rfl (by rw [hpc]; nofun) fun _ => by rw [hx.1]; exact hnone
          · exact hkeep _ rfl rfl rfl (by rw [hpc]; nofun) id
      | asking => exact fun _ => .inl (ns_ne_never _)
  | poll t => exact asked_serve .polling h rfl rfl id (.inr (.inr trivial)) fun _ => .inl trivial
  | serveNow t => exact asked_serve _ h rfl rfl id (.inl rfl) (hidle hg)
  | withLock t => exact asked_serve .spinning h rfl rfl id (.inl rfl) (hidle hg)
  | step t now =>
      change Asked (s.serveNext latency t now)
      have hask : ∀ {pc pc' : ServePc P}, s.serve t = pc → (pc.WillAsk → pc'.WillAsk) →
          (s.serve t).WillAsk → pc'.WillAsk ∨ (s.pending = none ∨ s.deadline ≠ NEVER) := by
        rintro pc pc' rfl hx hy
        exact .inl (hx hy)
      unfold State.serveNext
      cases hpc : s.serve t with
      | idle => exact h
      | polling =>
          refine asked_serve _ h rfl rfl id (.inl rfl) (hask hpc fun _ => ?_)
          split <;> trivial
      | wanting duty =>
          refine asked_serve _ h rfl rfl id (.inl rfl) (hask hpc fun hx => ?_)
          split
          · exact willAsk_returned hx
          · exact hx
      | trying duty =>
          dsimp only
          split
          · exact asked_serve _ h rfl rfl id (.inl rfl) (hask hpc willAsk_returned)
          · exact asked_serve (.locked duty) h rfl rfl id (.inl rfl) (hask hpc id)
      | locked duty =>
          exact asked_serve (.draining duty s.pending) h rfl rfl (fun hx => absurd rfl hx)
            (.inl rfl) fun hx => .inl (by rw [hpc] at hx; exact hx)
      | draining duty p =>
          cases p with
          | none => exact asked_serve (.serving duty) h rfl rfl id (.inl rfl) (hask hpc id)
          | some slot => exact asked_serve _ h rfl rfl id (.inl rfl) (hask hpc id)
      | unlisting duty slot p =>
          exact asked_serve (.collecting duty slot p) h rfl rfl id (.inl rfl) (hask hpc id)
      | collecting duty slot p =>
          exact asked_serve (.draining duty p) h rfl rfl id (.inl rfl) (hask hpc id)
      | serving duty =>
          exact asked_serve (.unlocking duty) h rfl rfl id (.inl rfl) (hask hpc id)
      | unlocking duty => exact asked_serve _ h rfl rfl id (.inl rfl) (hask hpc willAsk_returned)
      | checking =>
          refine asked_serve _ h rfl rfl id (.inl rfl) fun _ => ?_
          by_cases hp : s.pending = none
          · exact .inr (.inl hp)
          · rw [if_neg hp]
            exact .inl trivial
      | asking =>
          exact asked_serve .idle h rfl rfl id (.inr (.inl (ns_ne_never _)))
            fun _ => .inr (.inr (ns_ne_never _))
      | spinning => exact asked_serve _ h rfl rfl id (.inl rfl) (hask hpc fun hx => hx.elim)
      | spinningTry =>
          dsimp only
          split <;> exact asked_serve _ h rfl rfl id (.inl rfl) (hask hpc fun hx => hx.elim)
      | inside =>
          exact asked_serve .idle h rfl rfl id (.inl rfl) (hask hpc fun hx => hx.elim)

/-- What a delegator nobody has used has, and every step keeps. -/
structure Kept (s : State P T) : Prop where
  locked : Locked s
  listed : ∃ l d, Listed s l d
  noted : Noted s
  asked : Asked s

omit [DecidableEq P] [DecidableEq T] in
theorem kept_init (h : init s) : Kept s := by
  rcases h with ⟨hmark, hqueued, hseen, hpending, hbusy, -, -, hpost, hserve⟩
  -- Nobody posts, and nobody serves.
  have hlisting : ∀ p, ¬ (s.post p).Listing := fun p hp => by
    rw [hpost] at hp
    exact hp
  refine ⟨?_, ⟨[], fun _ => [], ?_⟩, fun p hp => ?_, fun hp => absurd hpending hp⟩
  · unfold Locked
    rw [hbusy]
    refine tryLock_free fun t ht => ?_
    rw [hserve] at ht
    exact ht
  · exact
      { chain := hpending
        drains := fun t => by rw [hserve]; rfl
        nodup := fun _ => List.nodup_nil
        queued := fun p => by
          rw [hqueued]
          refine ⟨nofun, ?_⟩
          rintro (hx | hx | ⟨_, hx⟩)
          · exact absurd hx List.not_mem_nil
          · exact absurd hx (hlisting p)
          · exact absurd hx List.not_mem_nil
        pending := fun _ hp => absurd hp List.not_mem_nil
        listing := fun p hp => absurd hp (hlisting p)
        link := fun p _ hp => by rw [hpost] at hp; cases hp }
  · rw [hmark, hseen] at hp
    exact absurd rfl hp

theorem kept_next (h : Kept s) {a : Action P T} (hg : guard s a) : Kept (next latency s a) := by
  rcases h.listed with ⟨_, _, hlisted⟩
  exact ⟨locked_next h.locked hg, listed_next hlisted h.locked hg, noted_next h.noted hg,
    asked_next h.asked hg⟩

theorem kept_reachable (h : (system latency).Reachable s) : Kept s :=
  h.induct (fun _ => kept_init) fun _ _ hs hg => kept_next hs hg

/-- A server has taken the slot and has not yet passed it. -/
def State.Draining (s : State P T) (p : P) : Prop :=
  ∃ t l, (s.serve t).Drains s.links l ∧ p ∈ l

omit [DecidableEq P] [DecidableEq T] in
theorem drains_unique {next : P → Option (Option P)} {pc : ServePc P} {l m : List P}
    (hl : pc.Drains next l) (hm : pc.Drains next m) : l = m := by
  cases pc
  case draining | collecting => exact Chain.unique hl hm
  case unlisting =>
    rcases hl with ⟨l', rfl, hl⟩
    rcases hm with ⟨m', rfl, hm⟩
    rw [hl.unique hm]
  all_goals exact Eq.trans hl (Eq.symm hm)

omit [DecidableEq P] [DecidableEq T] in
theorem Listed.draining_iff {l : List P} {d : T → List P} (h : Listed s l d) (p : P) :
    s.Draining p ↔ ∃ t, p ∈ d t := by
  constructor
  · rintro ⟨t, m, hm, hp⟩
    exact ⟨t, drains_unique hm (h.drains t) ▸ hp⟩
  · rintro ⟨t, hp⟩
    exact ⟨t, d t, h.drains t, hp⟩

omit [DecidableEq P] [DecidableEq T] in
/-- With no operation in flight, nobody is about to read a mark or to ask. -/
theorem Kept.settled (h : Kept s) (hq : Quiet s) {l : List P} {d : T → List P}
    (hl : Listed s l d) :
    (∀ p, s.mark p ≠ s.seen p → p ∈ l) ∧ (s.pending ≠ none → s.deadline ≠ NEVER) := by
  rcases hq with ⟨hpost, hserve⟩
  refine ⟨fun p hp => ?_, fun hp => ?_⟩
  · -- A mark that is ahead has its flag raised, and the flag has the slot listed.
    have hflag : s.queued p = true := by
      rcases h.noted p hp with hx | hx | ⟨t, hx⟩
      · exact hx
      · rw [hpost] at hx
        cases hx
      · rw [hserve] at hx
        exact hx.elim
    rcases (hl.queued p).mp hflag with hx | hx | ⟨t, hx⟩
    · exact hx
    · rw [hpost] at hx
      exact hx.elim
    · have hholds := hl.holds_of_mem hx
      rw [hserve] at hholds
      exact hholds.elim
  · rcases h.asked hp with hx | ⟨p, hx⟩ | ⟨t, hx⟩
    · exact hx
    · rw [hpost] at hx
      cases hx
    · rw [hserve] at hx
      exact hx.elim

/-- The delegator loses no post: however posts, serves, locked sections and
    polls interleave, each slot is in the pending list at most once, its flag
    says that it is there, about to be put there, or taken by a server that has
    not passed it; and with no operation in flight, every slot with posts that
    were not served is in the list, and if there is one, a poll has been
    requested. -/
theorem post_not_lost (latency : Nat) {s : State P T} (h : (system latency).Reachable s) :
    ∃ l, Chain s.links s.pending l ∧ l.Nodup ∧
      (∀ p, s.queued p = true ↔ p ∈ l ∨ (s.post p).Listing ∨ s.Draining p) ∧
      (∀ p, p ∈ l → ¬ (s.post p).Listing ∧ ¬ s.Draining p) ∧
      (∀ p, (s.post p).Listing → ¬ s.Draining p) ∧
      (Quiet s →
        (∀ p, s.mark p ≠ s.seen p → p ∈ l) ∧ (s.pending ≠ none → s.deadline ≠ NEVER)) := by
  have hkept := kept_reachable h
  rcases hkept.listed with ⟨l, d, hl⟩
  refine ⟨l, hl.chain, hl.chain.nodup, fun p => ?_, fun p hp => ?_, fun p hp hx => ?_,
    fun hq => hkept.settled hq hl⟩
  · rw [hl.draining_iff]
    exact hl.queued p
  · rw [hl.draining_iff, not_exists]
    exact hl.pending p hp
  · rcases (hl.draining_iff p).mp hx with ⟨t, ht⟩
    exact hl.listing p hp t ht

end

/-- A delegator nobody has used, with two producers and a server. -/
def fresh : State Bool Unit where
  mark := fun _ => 0
  queued := fun _ => false
  nextPending := fun _ => none
  seen := fun _ => 0
  pending := none
  busy := false
  batch := []
  deadline := NEVER
  log := []
  post := fun _ => .idle
  serve := fun _ => .idle

/-- A producer posts again after the server has cleared its flag and read its
    mark. -/
def postAgain : List (Action Bool Unit) :=
  Action.post true :: List.replicate 5 (Action.postStep true 0 false) ++ Action.poll () ::
    List.replicate 7 (Action.step () 3) ++ Action.post true ::
    List.replicate 5 (Action.postStep true 7 false) ++ List.replicate 5 (Action.step () 9)

/-- After a post that the serve has just missed, the slot is in the list and a
    poll is due. -/
theorem post_not_lost_postAgain :
    let s := (system 100).run fresh postAgain
    (∃ l, Chain s.links s.pending l ∧ true ∈ l) ∧ s.deadline ≠ NEVER := by
  intro s
  have hreach : (system 100).Reachable s :=
    System.reachable_run _ postAgain fresh
      ⟨fun _ => rfl, fun _ => rfl, fun _ => rfl, rfl, rfl, rfl, rfl, fun _ => rfl, fun _ => rfl⟩
      (by decide +kernel)
  have hquiet : Quiet s := by
    unfold Quiet
    exact ⟨by decide +kernel, fun () => by decide +kernel⟩
  rcases post_not_lost 100 hreach with ⟨l, hl, -, -, -, -, hsettled⟩
  exact ⟨⟨l, hl, (hsettled hquiet).1 true (by decide +kernel)⟩,
    (hsettled hquiet).2 (by decide +kernel)⟩

end Queue

end Post

end Cmpth

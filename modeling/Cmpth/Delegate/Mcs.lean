import Cmpth.Core.Chain
import Cmpth.Core.System
import Cmpth.Delegate.LockQueue

/-!
# `McsQueue`

The linked queue of `McsDelegator`: an entry for each claim, `tail` at the last
one and `head` at the holder's.

Each operation touches shared memory once (the swap or the compare and exchange
of `tail`, the store or the load of a link); what else it does is the caller's
or the holder's alone. An operation is therefore one step. A caller fills in
its node before it links it, and the two are one step as well. Of a node only
whose it is is kept, by the number of the claim.

## Main definitions

* `Entry`: `McsEntry`.
* `State`, `Action`, `system`: The queue as a guarded transition system.
* `op`, `result`: The operation a step performs, and what it returns.
* `drop`: `McsQueue::drop`.
* `Rep`: The queue is the abstract one.

## Theorems

* `rep_next`: Every step performs its operation on the abstract queue.
* `implements`: `McsQueue` is a lock with a queue.
* `nextOf_of_heap`, `nodeOf_of_heap`, `head_eq`, `tail_none`, `tail_eq`, `locked_of_head`,
  `tail_eq_head_iff`, `fresh_ne`: The ends of the queue, and its entries.
* `Rep.pending_eq`, `Rep.next_head`: Who is about to link himself, and whether the head is linked.
* `rep_init`, `rep_startLock`, `rep_setNext`, `rep_tryFollowHead`, `rep_tryUnlock`: The operations,
  one by one.
-/

namespace Cmpth

namespace Delegate

namespace McsQueue

/-- An entry. `node` is the number of the claim whose caller has filled it
    in. -/
structure Entry (E : Type*) where
  next : Option E
  node : Option Nat
  deriving DecidableEq, Repr

/-- The queue: the entries in memory, its two ends, and the callers that have yet to link
    themselves. -/
structure State (E : Type*) where
  heap : E → Option (Entry E)
  tail : Option E
  head : Option E
  /-- What `start_lock` has returned to the callers that have not linked
      themselves, `prev` and `cur`, by claim. -/
  pending : Nat → Option (E × E)
  claims : Nat

/-- The operations of the queue. -/
inductive Action (E : Type*) where
  /-- `start_lock`; the new entry is at the address `fresh`. -/
  | startLock (fresh : E)
  /-- The caller of the claim fills in its node and calls `set_next`. -/
  | setNext (i : Nat)
  | tryFollowHead
  | tryUnlock
  deriving DecidableEq, Repr

variable {E : Type*}

/-- The link of an entry. -/
def State.nextOf (s : State E) (e : E) : Option E :=
  (s.heap e).bind Entry.next

/-- What `try_follow_head` returns, by the caller of the node. -/
def State.nodeOf (s : State E) (e : E) : Option Nat :=
  (s.heap e).bind Entry.node

section

variable [DecidableEq E]

/-- One entry changes. -/
def State.modify (s : State E) (e : E) (f : Entry E → Entry E) : E → Option (Entry E) :=
  Function.update s.heap e ((s.heap e).map f)

/-- `start_lock`: a new entry at the tail, which is the head, too, if there was none. -/
def State.startLock (s : State E) (fresh : E) : State E where
  heap := Function.update s.heap fresh
    (some
      { next := none
        node := none })
  tail := some fresh
  head := if s.tail = none then some fresh else s.head
  pending := match s.tail with
    | none => s.pending
    | some prev => Function.update s.pending s.claims (some (prev, fresh))
  claims := s.claims + 1

/-- The caller fills in its node. -/
def State.fill (s : State E) (i : Nat) (cur : E) : State E :=
  { s with heap := s.modify cur fun e => { e with node := some i } }

/-- `set_next`: a caller fills in its entry and links it behind the one before. -/
def State.setNext (s : State E) (i : Nat) : State E :=
  match s.pending i with
  | none => s
  | some (prev, cur) =>
      { s with
        heap := (s.fill i cur).modify prev fun e => { e with next := some cur }
        pending := Function.update s.pending i none }

/-- `try_follow_head`: on to the next entry, and the old one is freed. -/
def State.tryFollowHead (s : State E) : State E :=
  match s.head with
  | none => s
  | some head =>
      match s.nextOf head with
      | none => s
      | some next =>
          { s with
            head := some next
            heap := Function.update s.heap head none }

/-- `try_unlock`: the exchange of the tail. -/
def State.tryUnlock (s : State E) : State E :=
  if s.tail = s.head then
    { s with
      head := none
      tail := none }
  else s

/-- Only the holder moves on or unlocks, and nobody links himself twice. -/
def guard (s : State E) : Action E → Prop
  | .startLock fresh => s.heap fresh = none
  | .setNext i => s.pending i ≠ none
  | .tryFollowHead | .tryUnlock => s.head ≠ none

/-- The state after an operation. -/
def next (s : State E) : Action E → State E
  | .startLock fresh => s.startLock fresh
  | .setNext i => s.setNext i
  | .tryFollowHead => s.tryFollowHead
  | .tryUnlock => s.tryUnlock

/-- An empty queue that has never been used. -/
def init (s : State E) : Prop :=
  (∀ e, s.heap e = none) ∧ s.tail = none ∧ s.head = none ∧ (∀ i, s.pending i = none) ∧ s.claims = 0

/-- The queue as a guarded transition system. -/
def system : System (State E) (Action E) where
  init := init
  guard := guard
  next := next

/-- `McsQueue::drop`, with the entries it frees. -/
def drop (fuel : Nat) (s : State E) : Option (List E × (E → Option (Entry E))) :=
  freeFrom Entry.next fuel s.heap s.head

end

/-- The operation a step performs. -/
def op : Action E → Op
  | .startLock _ => .startLock
  | .setNext i => .setNext i
  | .tryFollowHead => .tryFollowHead
  | .tryUnlock => .tryUnlock

/-- What it returns. -/
def result [DecidableEq E] (s : State E) : Action E → Result
  | .startLock _ => .claimed s.claims s.tail.isNone
  | .setNext _ => .linked
  | .tryFollowHead => .follows ((s.head.bind s.nextOf).bind s.nodeOf)
  | .tryUnlock => .unlocked (s.tail == s.head)

/-- The entry of claim `i` and the one behind it: linked, or to be linked by
    the caller that holds both. -/
structure Joined (s : State E) (q : LockQueue) (entry : Nat → E) (i : Nat) : Prop where
  linked : q.linked (i + 1) = true → s.nextOf (entry i) = some (entry (i + 1)) ∧
    s.nodeOf (entry (i + 1)) = some (i + 1) ∧ s.pending (i + 1) = none
  waiting : q.linked (i + 1) = false → s.nextOf (entry i) = none ∧
    s.pending (i + 1) = some (entry i, entry (i + 1))

/-- The queue is the abstract one, with the entry of each claim that has not
    been left behind. -/
structure Rep (s : State E) (q : LockQueue) (entry : Nat → E) : Prop where
  ok : q.Ok
  claims : s.claims = q.claimed
  head : s.head = if q.served < q.claimed then some (entry q.served) else none
  tail : s.tail = if q.served < q.claimed then some (entry (q.claimed - 1)) else none
  live : ∀ i, q.served ≤ i → i < q.claimed → s.heap (entry i) ≠ none
  inj : ∀ i j, q.served ≤ i → i < q.claimed → q.served ≤ j → j < q.claimed →
    entry i = entry j → i = j
  joined : ∀ i, q.served ≤ i → i + 1 < q.claimed → Joined s q entry i
  last : q.served < q.claimed → s.nextOf (entry (q.claimed - 1)) = none
  pending : ∀ i, s.pending i ≠ none → q.served < i ∧ i < q.claimed ∧ q.linked i = false

section

variable {s : State E} {q : LockQueue} {entry : Nat → E}

theorem nextOf_of_heap {s s' : State E} {e : E} (h : s'.heap e = s.heap e) :
    s'.nextOf e = s.nextOf e := by
  rw [State.nextOf, h]
  rfl

theorem nodeOf_of_heap {s s' : State E} {e : E} (h : s'.heap e = s.heap e) :
    s'.nodeOf e = s.nodeOf e := by
  rw [State.nodeOf, h]
  rfl

namespace Rep

theorem head_eq (h : Rep s q entry) (hq : q.served < q.claimed) :
    s.head = some (entry q.served) := by
  rw [h.head, if_pos hq]

theorem tail_none (h : Rep s q entry) (hq : ¬ q.served < q.claimed) : s.tail = none := by
  rw [h.tail, if_neg hq]

theorem tail_eq (h : Rep s q entry) (hq : q.served < q.claimed) :
    s.tail = some (entry (q.claimed - 1)) := by
  rw [h.tail, if_pos hq]

theorem locked_of_head (h : Rep s q entry) (hh : s.head ≠ none) : q.served < q.claimed := by
  by_contra hq
  rw [h.head, if_neg hq] at hh
  exact hh rfl

/-- The two ends meet at the holder's entry when nobody waits. -/
theorem tail_eq_head_iff (h : Rep s q entry) (hq : q.served < q.claimed) :
    s.tail = s.head ↔ q.served + 1 = q.claimed := by
  rw [h.head_eq hq, h.tail_eq hq]
  constructor
  · intro he
    have hsame := h.inj (q.claimed - 1) q.served (by omega) (by omega) (by omega) hq
      (Option.some.inj he)
    omega
  · intro he
    rw [show q.claimed - 1 = q.served by omega]

theorem fresh_ne (h : Rep s q entry) {fresh : E} (hf : s.heap fresh = none) {i : Nat}
    (hlo : q.served ≤ i) (hhi : i < q.claimed) : entry i ≠ fresh := by
  rintro rfl
  exact h.live i hlo hhi hf

end Rep

theorem rep_init (hi : init s) (entry : Nat → E) : Rep s .new entry := by
  rcases hi with ⟨hheap, htail, hhead, hpending, hclaims⟩
  exact
    { ok := LockQueue.ok_new
      claims := hclaims
      head := hhead
      tail := htail
      live := fun i _ hi => absurd hi (Nat.not_lt_zero i)
      inj := fun i _ _ hi => absurd hi (Nat.not_lt_zero i)
      joined := fun i _ hi => absurd hi (Nat.not_lt_zero _)
      last := fun hq => absurd hq (Nat.not_lt_zero _)
      pending := fun i hp => absurd (hpending i) hp }

variable [DecidableEq E]

/-- `start_lock` appends an entry. -/
theorem rep_startLock (h : Rep s q entry) {fresh : E} (hf : s.heap fresh = none) :
    Rep (s.startLock fresh) (q.after .startLock) (Function.update entry q.claimed fresh) := by
  have hle := h.ok.served
  -- The new claim has the new node; the others have theirs.
  have hentry : ∀ i, i < q.claimed → Function.update entry q.claimed fresh i = entry i :=
    fun i hi => Function.update_of_ne (by omega) ..
  have hnew : Function.update entry q.claimed fresh q.claimed = fresh := Function.update_self ..
  have hnext : ∀ e, e ≠ fresh → (s.startLock fresh).nextOf e = s.nextOf e :=
    fun e he => nextOf_of_heap (Function.update_of_ne he ..)
  have hnode : ∀ e, e ≠ fresh → (s.startLock fresh).nodeOf e = s.nodeOf e :=
    fun e he => nodeOf_of_heap (Function.update_of_ne he ..)
  -- What `start_lock` returns to a caller that has to wait.
  have hpending : ∀ i, (s.startLock fresh).pending i =
      if i = q.claimed ∧ q.served < q.claimed then some (entry (q.claimed - 1), fresh)
      else s.pending i := by
    intro i
    unfold State.startLock
    by_cases hq : q.served < q.claimed
    · simp only [h.tail_eq hq, h.claims]
      by_cases hi : i = q.claimed
      · rw [hi, Function.update_self, if_pos ⟨rfl, hq⟩]
      · rw [Function.update_of_ne hi, if_neg fun hx => hi hx.1]
    · simp only [h.tail_none hq]
      rw [if_neg fun hx => hq hx.2]
  refine
    { ok := h.ok.after trivial
      claims := congrArg (· + 1) h.claims
      head := ?_
      tail := ?_
      live := fun i hlo hhi => ?_
      inj := fun i j hi hi' hj hj' he => ?_
      joined := fun i hlo hhi => ?_
      last := fun _ => ?_
      pending := fun i hp => ?_ }
  · change (if s.tail = none then some fresh else s.head) =
      if q.served < q.claimed + 1 then some (Function.update entry q.claimed fresh q.served)
      else none
    rw [if_pos (Nat.lt_succ_of_le hle)]
    by_cases hq : q.served < q.claimed
    · rw [h.tail_eq hq, if_neg (by nofun), hentry _ hq, h.head_eq hq]
    · rw [h.tail_none hq, if_pos rfl, show q.served = q.claimed by omega, hnew]
  · change some fresh = if q.served < q.claimed + 1
      then some (Function.update entry q.claimed fresh (q.claimed + 1 - 1)) else none
    rw [if_pos (Nat.lt_succ_of_le hle), Nat.add_sub_cancel, hnew]
  · change Function.update s.heap fresh _ _ ≠ none
    by_cases hi : i = q.claimed
    · rw [hi, hnew, Function.update_self]
      nofun
    · have hhi : i < q.claimed + 1 := hhi
      have hlt : i < q.claimed := by omega
      rw [hentry i hlt, Function.update_of_ne (h.fresh_ne hf hlo hlt)]
      exact h.live i hlo hlt
  · have hi' : i < q.claimed + 1 := hi'
    have hj' : j < q.claimed + 1 := hj'
    -- A node that is new is no other claim's.
    by_cases hic : i = q.claimed <;> by_cases hjc : j = q.claimed
    · omega
    · rw [hic, hnew, hentry j (by omega)] at he
      exact absurd he.symm (h.fresh_ne hf hj (by omega))
    · rw [hjc, hnew, hentry i (by omega)] at he
      exact absurd he (h.fresh_ne hf hi (by omega))
    · rw [hentry i (by omega), hentry j (by omega)] at he
      exact h.inj i j hi (by omega) hj (by omega) he
  · have hhi : i + 1 < q.claimed + 1 := hhi
    by_cases hic : i + 1 = q.claimed
    · -- The new entry and the one that was the last.
      have hq : q.served < q.claimed := by
        have hlo : q.served ≤ i := hlo
        omega
      have hunlinked : q.linked (i + 1) = false := h.ok.linked _ (by omega)
      refine ⟨fun hl => ?_, fun _ => ?_⟩
      · have hl : q.linked (i + 1) = true := hl
        rw [hunlinked] at hl
        cases hl
      · have hlast := h.last hq
        rw [show q.claimed - 1 = i by omega] at hlast
        rw [hentry i (by omega), hnext _ (h.fresh_ne hf hlo (by omega)), hlast, hpending,
          if_pos ⟨hic, hq⟩, hic, hnew, ← hic, Nat.add_sub_cancel]
        exact ⟨rfl, rfl⟩
    · have hj := h.joined i hlo (by omega)
      have hp : (s.startLock fresh).pending (i + 1) = s.pending (i + 1) := by
        rw [hpending, if_neg fun hx => hic hx.1]
      refine ⟨fun hl => ?_, fun hl => ?_⟩
      · rw [hentry i (by omega), hentry (i + 1) (by omega),
          hnext _ (h.fresh_ne hf hlo (by omega)),
          hnode _ (h.fresh_ne hf (Nat.le_succ_of_le hlo) (by omega)), hp]
        exact hj.linked hl
      · rw [hentry i (by omega), hentry (i + 1) (by omega),
          hnext _ (h.fresh_ne hf hlo (by omega)), hp]
        exact hj.waiting hl
  · change (s.startLock fresh).nextOf (Function.update entry q.claimed fresh (q.claimed + 1 - 1)) =
      none
    rw [Nat.add_sub_cancel, hnew, State.nextOf,
      show (s.startLock fresh).heap fresh = some _ from Function.update_self ..]
    rfl
  · rw [hpending] at hp
    by_cases hi : i = q.claimed ∧ q.served < q.claimed
    · rw [hi.1]
      exact ⟨hi.2, Nat.lt_succ_self _, h.ok.linked _ (Nat.le_refl _)⟩
    · rw [if_neg hi] at hp
      rcases h.pending i hp with ⟨h1, h2, h3⟩
      exact ⟨h1, Nat.lt_succ_of_lt h2, h3⟩

omit [DecidableEq E] in
/-- Whoever has to link himself holds the entries to join. -/
theorem Rep.pending_eq (h : Rep s q entry) {i : Nat} (hp : s.pending i ≠ none) :
    ∃ j, i = j + 1 ∧ q.served ≤ j ∧ j + 1 < q.claimed ∧ q.linked i = false ∧
      s.nextOf (entry j) = none ∧ s.pending i = some (entry j, entry i) := by
  rcases h.pending i hp with ⟨hlo, hhi, hl⟩
  cases i with
  | zero => exact absurd hlo (Nat.not_lt_zero _)
  | succ j =>
      have hj := (h.joined j (Nat.le_of_lt_succ hlo) hhi).waiting hl
      exact ⟨j, rfl, Nat.le_of_lt_succ hlo, hhi, hl, hj.1, hj.2⟩

/-- A caller links itself behind its predecessor. -/
theorem rep_setNext (h : Rep s q entry) {i : Nat} (hp : s.pending i ≠ none) :
    Rep (s.setNext i) (q.after (.setNext i)) entry := by
  rcases h.pending_eq hp with ⟨j, rfl, hlo, hhi, hl, hnone, hpend⟩
  -- Two claims that follow each other have different nodes.
  have hne : entry j ≠ entry (j + 1) := fun he => by
    have hsame := h.inj j (j + 1) hlo (by omega) (by omega) hhi he
    omega
  have hset : s.setNext (j + 1) =
      { s with
        heap := (s.fill (j + 1) (entry (j + 1))).modify (entry j)
          fun e => { e with next := some (entry (j + 1)) }
        pending := Function.update s.pending (j + 1) none } := by
    unfold State.setNext
    rw [hpend]
  have hprev : (s.setNext (j + 1)).heap (entry j) =
      (s.heap (entry j)).map fun e => { e with next := some (entry (j + 1)) } := by
    rw [hset]
    simp only [State.modify, State.fill, Function.update_self, Function.update_of_ne hne]
  have hcur : (s.setNext (j + 1)).heap (entry (j + 1)) =
      (s.heap (entry (j + 1))).map fun e => { e with node := some (j + 1) } := by
    rw [hset]
    simp only [State.modify, State.fill, Function.update_self, Function.update_of_ne hne.symm]
  have hother : ∀ e, e ≠ entry j → e ≠ entry (j + 1) →
      (s.setNext (j + 1)).heap e = s.heap e := by
    intro e h1 h2
    rw [hset]
    simp only [State.modify, State.fill, Function.update_of_ne h1, Function.update_of_ne h2]
  -- Only the predecessor's link changes, and only the caller's node.
  have hnext : ∀ e, e ≠ entry j → (s.setNext (j + 1)).nextOf e = s.nextOf e := by
    intro e he
    by_cases hc : e = entry (j + 1)
    · rw [hc, State.nextOf, hcur, State.nextOf]
      cases s.heap (entry (j + 1)) <;> rfl
    · exact nextOf_of_heap (hother e he hc)
  have hnode : ∀ e, e ≠ entry (j + 1) → (s.setNext (j + 1)).nodeOf e = s.nodeOf e := by
    intro e he
    by_cases hc : e = entry j
    · rw [hc, State.nodeOf, hprev, State.nodeOf]
      cases s.heap (entry j) <;> rfl
    · exact nodeOf_of_heap (hother e hc he)
  have hpending : ∀ k, k ≠ j + 1 → (s.setNext (j + 1)).pending k = s.pending k := by
    intro k hk
    rw [hset]
    exact Function.update_of_ne hk ..
  have hpendingSelf : (s.setNext (j + 1)).pending (j + 1) = none := by
    rw [hset]
    exact Function.update_self ..
  have hrest : (s.setNext (j + 1)).head = s.head ∧ (s.setNext (j + 1)).tail = s.tail ∧
      (s.setNext (j + 1)).claims = s.claims := by
    rw [hset]
    exact ⟨rfl, rfl, rfl⟩
  refine
    { ok := h.ok.after ⟨by omega, hhi, hl⟩
      claims := hrest.2.2.trans h.claims
      head := hrest.1.trans h.head
      tail := hrest.2.1.trans h.tail
      live := fun k hk hk' => ?_
      inj := h.inj
      joined := fun k hk hk' => ?_
      last := fun hq => ?_
      pending := fun k hk => ?_ }
  · have hlive := h.live k hk hk'
    by_cases hj : entry k = entry j
    · rw [hj] at hlive ⊢
      rw [hprev]
      simpa using hlive
    · by_cases hj' : entry k = entry (j + 1)
      · rw [hj'] at hlive ⊢
        rw [hcur]
        simpa using hlive
      · rw [hother _ hj hj']
        exact hlive
  · have hk' : k + 1 < q.claimed := hk'
    -- The link that was missing is there now, and the others are as before.
    by_cases hkj : k = j
    · subst hkj
      refine ⟨fun _ => ⟨?_, ?_, hpendingSelf⟩, fun hf => ?_⟩
      · rcases Option.ne_none_iff_exists'.mp (h.live k hlo (by omega)) with ⟨e, he⟩
        rw [State.nextOf, hprev, he]
        rfl
      · rcases Option.ne_none_iff_exists'.mp (h.live (k + 1) (by omega) hhi) with ⟨e, he⟩
        rw [State.nodeOf, hcur, he]
        rfl
      · change Function.update q.linked (k + 1) true (k + 1) = false at hf
        rw [Function.update_self] at hf
        cases hf
    · have hk : q.served ≤ k := hk
      have hek : entry k ≠ entry j := fun he => hkj (h.inj k j hk (by omega) hlo (by omega) he)
      have hek' : entry (k + 1) ≠ entry (j + 1) := fun he => by
        have hsame := h.inj (k + 1) (j + 1) (by omega) hk' (by omega) hhi he
        omega
      have hj := h.joined k hk hk'
      have hlk : (q.after (.setNext (j + 1))).linked (k + 1) = q.linked (k + 1) :=
        Function.update_of_ne (by omega) ..
      refine ⟨fun hl => ?_, fun hl => ?_⟩
      · rw [hlk] at hl
        rw [hnext _ hek, hnode _ hek', hpending _ (by omega)]
        exact hj.linked hl
      · rw [hlk] at hl
        rw [hnext _ hek, hpending _ (by omega)]
        exact hj.waiting hl
  · have hq : q.served < q.claimed := hq
    have hel : entry (q.claimed - 1) ≠ entry j := fun he => by
      have hsame := h.inj (q.claimed - 1) j (by omega) (by omega) hlo (by omega) he
      omega
    exact (hnext _ hel).trans (h.last hq)
  · by_cases hkj : k = j + 1
    · rw [hkj, hpendingSelf] at hk
      exact absurd rfl hk
    · rw [hpending k hkj] at hk
      rcases h.pending k hk with ⟨h1, h2, h3⟩
      refine ⟨h1, h2, ?_⟩
      change Function.update q.linked (j + 1) true k = false
      rw [Function.update_of_ne hkj]
      exact h3

omit [DecidableEq E] in
/-- The holder's entry is linked to the next one when its successor has linked
    itself. -/
theorem Rep.next_head (h : Rep s q entry) (hq : q.served < q.claimed) :
    s.nextOf (entry q.served) = if q.HasNext then some (entry (q.served + 1)) else none := by
  by_cases hlt : q.served + 1 < q.claimed
  · have hj := h.joined q.served (Nat.le_refl _) hlt
    by_cases hl : q.linked (q.served + 1) = true
    · rw [if_pos ⟨hlt, hl⟩]
      exact (hj.linked hl).1
    · rw [if_neg fun hn => hl hn.2]
      exact (hj.waiting (by simpa using hl)).1
  · have hlast := h.last hq
    rw [show q.claimed - 1 = q.served by omega] at hlast
    rw [if_neg fun hn => hlt hn.1]
    exact hlast

/-- The holder moves on, once its successor has linked itself. -/
theorem rep_tryFollowHead (h : Rep s q entry) (hq : q.served < q.claimed) :
    Rep s.tryFollowHead (q.after .tryFollowHead) entry := by
  unfold State.tryFollowHead
  rw [h.head_eq hq]
  dsimp only
  rw [h.next_head hq]
  by_cases hn : q.HasNext
  · rw [if_pos hn]
    have hlt := hn.1
    have hl := hn.2
    have hne : ∀ i, q.served + 1 ≤ i → i < q.claimed → entry i ≠ entry q.served := by
      intro i hi hi' hsame
      have heq := h.inj i q.served (by omega) hi' (Nat.le_refl _) hq hsame
      omega
    rw [show q.after .tryFollowHead = { q with served := q.served + 1 } from if_pos hn]
    have hheap : ∀ i, q.served + 1 ≤ i → i < q.claimed →
        Function.update s.heap (entry q.served) none (entry i) = s.heap (entry i) :=
      fun i hi hi' => Function.update_of_ne (hne i hi hi') ..
    refine
      { ok := ⟨Nat.le_of_lt hlt, h.ok.linked⟩
        claims := h.claims
        head := (if_pos hlt).symm
        tail := ?_
        live := fun i hi hi' => ?_
        inj := fun i j hi hi' hj hj' => h.inj i j (Nat.le_of_succ_le hi) hi'
          (Nat.le_of_succ_le hj) hj'
        joined := fun i hi hi' => ?_
        last := fun _ => ?_
        pending := fun i hi => ?_ }
    · rw [if_pos hlt]
      exact h.tail_eq hq
    · change Function.update s.heap (entry q.served) none (entry i) ≠ none
      rw [hheap i hi hi']
      exact h.live i (Nat.le_of_succ_le hi) hi'
    · have hi' : i + 1 < q.claimed := hi'
      have hi : q.served + 1 ≤ i := hi
      have hji := h.joined i (by omega) hi'
      refine ⟨fun hl => ?_, fun hl => ?_⟩
      · rw [nextOf_of_heap (hheap i hi (by omega)), nodeOf_of_heap (hheap (i + 1) (by omega) hi')]
        exact hji.linked hl
      · rw [nextOf_of_heap (hheap i hi (by omega))]
        exact hji.waiting hl
    · rw [nextOf_of_heap (hheap (q.claimed - 1) (by omega) (by omega))]
      exact h.last hq
    · rcases h.pending i hi with ⟨h1, h2, h3⟩
      refine ⟨?_, h2, h3⟩
      -- The successor has linked itself, so it is not one of those.
      have hne' : i ≠ q.served + 1 := by
        rintro rfl
        rw [hl] at h3
        cases h3
      change q.served + 1 < i
      omega
  · rw [if_neg hn, show q.after .tryFollowHead = q from if_neg hn]
    exact h

/-- A release with nobody waiting frees the lock; otherwise nothing happens. -/
theorem rep_tryUnlock (h : Rep s q entry) (hq : q.served < q.claimed) :
    Rep s.tryUnlock (q.after .tryUnlock) entry := by
  unfold State.tryUnlock
  -- The tail is the holder's node exactly if its claim is the last.
  by_cases hlast : q.served + 1 = q.claimed
  · rw [if_pos ((h.tail_eq_head_iff hq).mpr hlast),
      show q.after .tryUnlock = { q with served := q.claimed } from if_pos hlast]
    exact
      { ok := ⟨Nat.le_refl _, h.ok.linked⟩
        claims := h.claims
        head := (if_neg (Nat.lt_irrefl _)).symm
        tail := (if_neg (Nat.lt_irrefl _)).symm
        live := fun i hi hi' => absurd hi' (Nat.not_lt.mpr hi)
        inj := fun i _ hi hi' => absurd hi' (Nat.not_lt.mpr hi)
        joined := fun i hi hi' => absurd (Nat.lt_of_succ_lt hi') (Nat.not_lt.mpr hi)
        last := fun hlt => absurd hlt (Nat.lt_irrefl _)
        pending := fun i hi => by
          rcases h.pending i hi with ⟨h1, h2, _⟩
          omega }
  · rw [if_neg fun he => hlast ((h.tail_eq_head_iff hq).mp he),
      show q.after .tryUnlock = q from if_neg hlast]
    exact h

/-- Every step performs its operation on the abstract queue, as the protocol
    allows, and returns what the operation does. -/
theorem rep_next (h : Rep s q entry) {a : Action E} (hg : guard s a) :
    q.allowed (op a) ∧ result s a = q.result (op a) ∧
      ∃ entry', Rep (next s a) (q.after (op a)) entry' := by
  cases a with
  -- The caller has the lock at once if the queue was empty.
  | startLock fresh =>
      refine ⟨trivial, ?_, _, rep_startLock h hg⟩
      change Result.claimed s.claims s.tail.isNone = .claimed q.claimed (q.served == q.claimed)
      have hle := h.ok.served
      rw [h.claims, h.tail]
      by_cases hq : q.served < q.claimed
      · rw [if_pos hq, beq_eq_false_iff_ne.mpr (Nat.ne_of_lt hq)]
        rfl
      · rw [if_neg hq, beq_iff_eq.mpr (show q.served = q.claimed by omega)]
        rfl
  | setNext i => exact ⟨h.pending i hg, rfl, _, rep_setNext h hg⟩
  | tryFollowHead =>
      have hq := h.locked_of_head hg
      refine ⟨hq, ?_, _, rep_tryFollowHead h hq⟩
      change Result.follows ((s.head.bind s.nextOf).bind s.nodeOf) =
        .follows (if q.HasNext then some (q.served + 1) else none)
      rw [h.head_eq hq, Option.bind_some, h.next_head hq]
      by_cases hn : q.HasNext
      · rw [if_pos hn, if_pos hn, Option.bind_some,
          ((h.joined q.served (Nat.le_refl _) hn.1).linked hn.2).2.1]
      · rw [if_neg hn, if_neg hn]
        rfl
  | tryUnlock =>
      have hq := h.locked_of_head hg
      refine ⟨hq, ?_, _, rep_tryUnlock h hq⟩
      change Result.unlocked (s.tail == s.head) = .unlocked (q.served + 1 == q.claimed)
      -- The ends meet where nobody is behind the holder.
      have hsame : (s.tail == s.head) = (q.served + 1 == q.claimed) := by
        rw [Bool.eq_iff_iff, beq_iff_eq, beq_iff_eq]
        exact h.tail_eq_head_iff hq
      rw [hsame]

/-- `McsQueue` is a lock with a queue. -/
theorem implements [Inhabited E] : LockQueue.Implements (system (E := E))
    (fun s a => some (op a, result s a)) fun s q => ∃ entry, Rep s q entry where
  init s hi := ⟨fun _ => default, rep_init hi _⟩
  step s q a h hg := by
    rcases h with ⟨entry, h⟩
    rcases rep_next h hg with ⟨ha, hr, hrep⟩
    exact .inr ⟨op a, by rw [hr], ha, hrep⟩

end

end McsQueue

end Delegate

end Cmpth

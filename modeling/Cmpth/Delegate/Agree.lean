import Mathlib.Data.Set.Finite.Basic
import Cmpth.Delegate.Leak
import Cmpth.Delegate.RingRep

/-!
# The Two Queues Agree

What `RingBufQueue` keeps in every state, in terms of the claims that are out,
and that `McsQueue` does the same.

`McsQueue` can take the operations of any run of the ring, provided there is
memory for the entries. Both return what the abstract lock returns, so that the
holders come in one order under either.

## Main definitions

* `claimOf`: The number of a claim that has been made.
* `RingBufQueue.Write`: Who may write to the slot of a claim.
* `RingBufQueue.Sound`: What the ring keeps.

## Theorems

* `claims_results`: The claims are numbered as they are made.
* `McsQueue.exists_run`: The linked queue can take the operations of the lock.
* `RingBufQueue.write_of_rep`: A slot is written by its claim's caller and by
  the holder that has consumed it.
* `RingBufQueue.refines_lockQueue`: The ring is a lock with a queue, and agrees
  with the linked one.
* `heap_next`, `finite_next`, `exists_action`: What the linked queue allocates, and that it can
  follow the lock.
* `Rep.held`, `node_next`, `ready_next`, `node_of_rep`, `ready_of_rep`, `Rep.sound`: Which slots a
  step of the ring writes.
* `handOn_legal`, `refines_lockQueue_handOn`: A lock that is handed on once.
-/

namespace Cmpth

namespace Delegate

namespace LockQueue

/-- The number of a claim that has been made. -/
def claimOf : Result → Option Nat
  | .claimed i _ => some i
  | .linked | .follows _ | .unlocked _ => none

/-- The claims are numbered as they are made. -/
theorem claims_results (os : List Op) (q : LockQueue) :
    ∃ n, (q.results os).filterMap claimOf = List.range' q.claimed n := by
  induction os generalizing q with
  | nil => exact ⟨0, rfl⟩
  | cons o os ih =>
      rcases ih (q.after o) with ⟨n, hn⟩
      -- Only `start_lock` makes a claim.
      have hkeep : ∀ o : Op, o ≠ .startLock → claimOf (q.result o) = none ∧
          (q.after o).claimed = q.claimed := by
        intro o ho
        cases o with
        | startLock => exact absurd rfl ho
        | setNext i => exact ⟨rfl, rfl⟩
        | tryFollowHead =>
            refine ⟨rfl, ?_⟩
            unfold LockQueue.after
            dsimp only
            split <;> rfl
        | tryUnlock =>
            refine ⟨rfl, ?_⟩
            unfold LockQueue.after
            dsimp only
            split <;> rfl
      by_cases ho : o = .startLock
      · subst ho
        have hr : claimOf (q.result .startLock) = some q.claimed := rfl
        refine ⟨n + 1, ?_⟩
        rw [results, List.filterMap_cons_some hr, hn]
        rfl
      · refine ⟨n, ?_⟩
        rw [results, List.filterMap_cons_none (hkeep o ho).1, hn, (hkeep o ho).2]

end LockQueue

namespace McsQueue

section

variable {E : Type*} [DecidableEq E] {s : State E} {q : LockQueue} {entry : Nat → E}

/-- Only `start_lock` allocates. -/
theorem heap_next {a : Action E} {e : E} (he : (next s a).heap e ≠ none) :
    s.heap e ≠ none ∨ a = .startLock e := by
  by_contra hn
  push Not at hn
  rcases hn with ⟨hnone, ha⟩
  refine he ?_
  -- Every other operation keeps the nodes or frees one.
  cases a with
  | startLock fresh =>
      have hne : e ≠ fresh := by
        rintro rfl
        exact ha rfl
      exact (Function.update_of_ne hne ..).trans hnone
  | setNext i =>
      change (s.setNext i).heap e = none
      unfold State.setNext
      cases s.pending i with
      | none => exact hnone
      | some x => exact modify_none _ (modify_none _ hnone)
  | tryFollowHead =>
      change s.tryFollowHead.heap e = none
      unfold State.tryFollowHead
      cases s.head with
      | none => exact hnone
      | some head =>
          dsimp only
          cases s.nextOf head with
          | none => exact hnone
          | some x =>
              by_cases hx : e = head
              · rw [hx]
                exact Function.update_self ..
              · exact (Function.update_of_ne hx ..).trans hnone
  | tryUnlock =>
      change s.tryUnlock.heap e = none
      unfold State.tryUnlock
      split <;> exact hnone

theorem finite_next (h : {e | s.heap e ≠ none}.Finite) (a : Action E) :
    {e | (next s a).heap e ≠ none}.Finite := by
  cases a with
  | startLock fresh =>
      refine (h.insert fresh).subset fun e he => ?_
      rcases heap_next he with hold | heq
      · exact .inr hold
      · cases heq
        exact .inl rfl
  | setNext | tryFollowHead | tryUnlock =>
      refine h.subset fun e he => (heap_next he).resolve_right nofun

omit [DecidableEq E] in
/-- The linked queue can take any operation the lock can. -/
theorem exists_action [Infinite E] (h : Rep s q entry) (hfin : {e | s.heap e ≠ none}.Finite)
    {o : Op} (ha : q.allowed o) : ∃ a, guard s a ∧ op a = o := by
  -- While somebody has the lock the linked queue has a head.
  have hhead : q.served < q.claimed → s.head ≠ none := fun hlt he => by
    rw [h.head_eq hlt] at he
    cases he
  cases o with
  | startLock =>
      rcases hfin.infinite_compl.nonempty with ⟨fresh, hf⟩
      exact ⟨.startLock fresh, not_not.mp hf, rfl⟩
  | setNext i =>
      rcases ha with ⟨hlo, hhi, hl⟩
      refine ⟨.setNext i, ?_, rfl⟩
      cases i with
      | zero => exact absurd hlo (Nat.not_lt_zero _)
      | succ j =>
          have hp := ((h.joined j (Nat.le_of_lt_succ hlo) hhi).waiting hl).2
          change s.pending (j + 1) ≠ none
          rw [hp]
          nofun
  | tryFollowHead => exact ⟨.tryFollowHead, hhead ha, rfl⟩
  | tryUnlock => exact ⟨.tryUnlock, hhead ha, rfl⟩

/-- The operations of the lock are those of a run of the linked queue. -/
theorem exists_run [Infinite E] (os : List Op) (s : State E) (q : LockQueue) (entry : Nat → E)
    (h : Rep s q entry) (hfin : {e | s.heap e ≠ none}.Finite) (ha : q.allowedAll os) :
    ∃ as, system.Legal s as ∧
      (trace system (fun s a => some (op a, result s a)) s as).map Prod.fst = os := by
  induction os generalizing s q entry with
  | nil => exact ⟨[], trivial, rfl⟩
  | cons o os ih =>
      rcases exists_action h hfin ha.1 with ⟨a, hg, rfl⟩
      rcases rep_next h hg with ⟨_, _, entry', h'⟩
      rcases ih (next s a) _ entry' h' (finite_next hfin a) ha.2 with ⟨as, hl, hops⟩
      exact ⟨a :: as, ⟨hg, hl⟩, congrArg (op a :: ·) hops⟩

end

end McsQueue

namespace RingBufQueue

variable {K : Type*}

section

variable [DecidableEq K]

/-- Who may write to the slot of claim `i`: its caller, before anybody can see
    it, and the holder that has taken from it what it needs. -/
structure Write (n : Nat) (s : State K) (a : Action K) (i : Nat) : Prop where
  node : (next n s a).node (mask n i) ≠ s.node (mask n i) →
    (∃ k, a = .fill k ∧ s.caller k = .claimed i) ∨ a = .holder ∧ s.holder = .cleared i
  ready : (next n s a).ready (mask n i) ≠ s.ready (mask n i) →
    (∃ k, a = .setNext k ∧ s.caller k = .filled i) ∨
      ∃ j, i = j + 1 ∧ a = .holder ∧ s.holder = .found j

/-- What the ring keeps, where `q` has served and made the claims of the run so
    far. -/
structure Sound (n : Nat) (s : State K) (q : LockQueue) : Prop where
  /-- At most `n` slots are claimed at once. -/
  room : q.claimed ≤ q.served + n
  slots : ∀ i j, q.served ≤ i → i < q.claimed → q.served ≤ j → j < q.claimed →
    mask n i = mask n j → i = j
  /-- The slot of a waiting claim is not written to before it is consumed. -/
  kept : ∀ a, guard s a → ∀ i, q.served < i → i < q.claimed → Write n s a i
  /-- The holder's own node stays until the holder moves on. -/
  keptHead : ∀ a, guard s a → q.served < q.claimed →
    (next n s a).node (mask n q.served) ≠ s.node (mask n q.served) →
      a = .holder ∧ s.holder = .cleared q.served
  /-- Nobody waits for a lock that is free. -/
  free : s.tail &&& FREE ≠ 0 → q.served = q.claimed ∧ ∀ k, (s.caller k).claim = none
  /-- Whoever waits has a holder to wait for. -/
  held : q.served < q.claimed → s.holder ≠ .nobody ∨ ∃ k, s.caller k = .locked q.served

end

section

variable {m : Nat} {s : State K} {q : LockQueue}

theorem Rep.held (h : Rep m s q) (hlt : q.served < q.claimed) :
    s.holder ≠ .nobody ∨ ∃ k, s.caller k = .locked q.served := by
  by_cases hp : s.holder = .nobody
  · have hold := h.holder
    rw [hp] at hold
    exact .inr (hold.resolve_left (Nat.ne_of_lt hlt))
  · exact .inl hp

variable [DecidableEq K]

/-- Steps that leave the nodes alone. -/
theorem node_next (a : Action K) (hfill : ∀ k, a ≠ .fill k)
    (hreset : a ≠ .holder ∨ ∀ i, s.holder ≠ .cleared i) : (next (2 ^ m) s a).node = s.node := by
  unfold next
  cases a with
  | fill k => exact absurd rfl (hfill k)
  | loadTail | unlock | follow => rfl
  | loadHead k =>
      dsimp only
      unfold State.checkFull
      repeat' split
      all_goals rfl
  | exchange k spurious =>
      dsimp only
      unfold State.exchange
      repeat' split
      all_goals rfl
  | storeHead k | setNext k =>
      dsimp only
      split <;> rfl
  | holder =>
      dsimp only
      unfold State.holderStep
      cases hp : s.holder with
      | cleared i => exact absurd hp (hreset.resolve_left (fun h => h rfl) i)
      | nobody | holding | found | following | reset => rfl
      | unlocking =>
          dsimp only
          split <;> rfl

/-- Steps that leave the flags alone. -/
theorem ready_next (a : Action K) (hset : ∀ k, a ≠ .setNext k)
    (hfound : a ≠ .holder ∨ ∀ i, s.holder ≠ .found i) : (next (2 ^ m) s a).ready = s.ready := by
  unfold next
  cases a with
  | setNext k => exact absurd rfl (hset k)
  | loadTail | unlock | follow => rfl
  | loadHead k =>
      dsimp only
      unfold State.checkFull
      repeat' split
      all_goals rfl
  | exchange k spurious =>
      dsimp only
      unfold State.exchange
      repeat' split
      all_goals rfl
  | storeHead k | fill k =>
      dsimp only
      split <;> rfl
  | holder =>
      dsimp only
      unfold State.holderStep
      cases hp : s.holder with
      | found i => exact absurd hp (hfound.resolve_left (fun h => h rfl) i)
      | nobody | holding | cleared | following | reset => rfl
      | unlocking =>
          dsimp only
          split <;> rfl

/-- The node of a claim that is out is written by its caller or by the holder
    that resets its own. -/
theorem node_of_rep (h : Rep m s q) {a : Action K} (hg : guard s a) {i : Nat}
    (hi : q.served ≤ i) (hi' : i < q.claimed)
    (hne : (next (2 ^ m) s a).node (mask (2 ^ m) i) ≠ s.node (mask (2 ^ m) i)) :
    (∃ k, a = .fill k ∧ s.caller k = .claimed i) ∨
      i = q.served ∧ a = .holder ∧ s.holder = .cleared i := by
  -- The claim's own caller fills the slot, while the claim is out.
  by_cases hfill : ∃ k, a = .fill k
  · rcases hfill with ⟨k, rfl⟩
    rcases hg with ⟨idx, hk⟩
    have hmine := h.claim k idx (congrArg CallerPc.claim hk)
    rw [next, hk] at hne
    have hslot : mask (2 ^ m) i = mask (2 ^ m) idx := by
      by_contra hx
      exact hne (Function.update_of_ne hx ..)
    rw [h.slot_inj hslot hi hi' (le_of_lt hmine.1) hmine.2.1]
    exact .inl ⟨k, rfl, hk⟩
  · -- The holder resets the slot it has consumed.
    by_cases hreset : a = .holder ∧ ∃ j, s.holder = .cleared j
    · rcases hreset with ⟨rfl, j, hp⟩
      have hold := h.holder
      rw [hp] at hold
      rcases hold with ⟨rfl, _, hn⟩
      rw [next, State.holderStep, hp] at hne
      have hslot : mask (2 ^ m) i = mask (2 ^ m) q.served := by
        by_contra hx
        exact hne (Function.update_of_ne hx ..)
      have heq := h.slot_inj hslot hi hi' le_rfl (Nat.lt_of_succ_lt hn.1)
      exact .inr ⟨heq, rfl, heq ▸ hp⟩
    · -- No other step writes to a node.
      refine absurd ?_ hne
      rw [node_next a (fun k hx => hfill ⟨k, hx⟩)]
      by_cases ha : a = .holder
      · exact .inr fun j hp => hreset ⟨ha, j, hp⟩
      · exact .inl ha

/-- The flag of a claim that waits is set by its caller and cleared by the
    holder that has found it. -/
theorem ready_of_rep (h : Rep m s q) {a : Action K} (hg : guard s a) {i : Nat}
    (hi : q.served < i) (hi' : i < q.claimed)
    (hne : (next (2 ^ m) s a).ready (mask (2 ^ m) i) ≠ s.ready (mask (2 ^ m) i)) :
    (∃ k, a = .setNext k ∧ s.caller k = .filled i) ∨
      ∃ j, i = j + 1 ∧ a = .holder ∧ s.holder = .found j := by
  -- The claim's own caller raises the flag.
  by_cases hset : ∃ k, a = .setNext k
  · rcases hset with ⟨k, rfl⟩
    rcases hg with ⟨idx, hk⟩
    have hmine := h.claim k idx (congrArg CallerPc.claim hk)
    rw [next, hk] at hne
    have hslot : mask (2 ^ m) i = mask (2 ^ m) idx := by
      by_contra hx
      exact hne (Function.update_of_ne hx ..)
    rw [h.slot_inj hslot (le_of_lt hi) hi' (le_of_lt hmine.1) hmine.2.1]
    exact .inl ⟨k, rfl, hk⟩
  · -- The holder lowers the flag it has found, which is the next one's.
    by_cases hfound : a = .holder ∧ ∃ j, s.holder = .found j
    · rcases hfound with ⟨rfl, j, hp⟩
      have hold := h.holder
      rw [hp] at hold
      rcases hold with ⟨rfl, _, hn⟩
      rw [next, State.holderStep, hp] at hne
      have hslot : mask (2 ^ m) i = mask (2 ^ m) (q.served + 1) := by
        by_contra hx
        exact hne (Function.update_of_ne hx ..)
      have heq := h.slot_inj hslot (le_of_lt hi) hi' (Nat.le_succ _) hn.1
      exact .inr ⟨q.served, heq, rfl, hp⟩
    · refine absurd ?_ hne
      rw [ready_next a (fun k hx => hset ⟨k, hx⟩)]
      by_cases ha : a = .holder
      · exact .inr fun j hp => hfound ⟨ha, j, hp⟩
      · exact .inl ha

theorem Rep.sound (h : Rep m s q) : Sound (2 ^ m) s q where
  room := h.room
  slots _ _ hi hi' hj hj' he := h.slot_inj he hi hi' hj hj'
  kept a hg i hi hi' :=
    { node := fun hne => (node_of_rep h hg (le_of_lt hi) hi' hne).imp_right And.right
      ready := ready_of_rep h hg hi hi' }
  keptHead a hg hlt hne := by
    rcases node_of_rep h hg le_rfl hlt hne with ⟨k, _, hk⟩ | hx
    · exact absurd (h.claim k _ (congrArg CallerPc.claim hk)).1 (Nat.lt_irrefl _)
    · exact hx.2
  free hf := by
    have heq := (h.free_iff rfl).mp hf
    refine ⟨heq, fun k => ?_⟩
    -- A caller that has a claim is still to link itself.
    cases hc : (s.caller k).claim with
    | none => rfl
    | some idx =>
        have hmine := h.claim k idx hc
        omega
  held := h.held

/-- `RingBufQueue` is the lock with a queue: what a run returns, who holds the
    lock in which order, and what is in the slots. `McsQueue` can do the same
    operations, and returns the same. -/
theorem refines_lockQueue {E : Type*} [DecidableEq E] [Infinite E] (m : Nat) (s : State K)
    (as : List (Action K)) (hi : (system (2 ^ m)).init s) (hl : (system (2 ^ m)).Legal s as)
    (ops : List Op) (res : List Result)
    (hops : ops = (trace (system (2 ^ m)) (label (2 ^ m)) s as).map Prod.fst)
    (hres : res = (trace (system (2 ^ m)) (label (2 ^ m)) s as).map Prod.snd) :
    LockQueue.new.allowedAll ops ∧ res = LockQueue.new.results ops ∧
      Sound (2 ^ m) ((system (2 ^ m)).run s as) (LockQueue.new.afterAll ops) ∧
      (∃ n, res.filterMap LockQueue.claimOf = List.range' 0 n) ∧
      (∃ n, res.filterMap LockQueue.holder = List.range' 0 n) ∧
      ∀ t : McsQueue.State E, McsQueue.system.init t →
        (∃ bs, McsQueue.system.Legal t bs ∧ ops =
          (trace McsQueue.system (fun t b => some (McsQueue.op b, McsQueue.result t b)) t bs).map
            Prod.fst) ∧
        ∀ bs, McsQueue.system.Legal t bs → ops =
          (trace McsQueue.system (fun t b => some (McsQueue.op b, McsQueue.result t b)) t bs).map
            Prod.fst → res =
          (trace McsQueue.system (fun t b => some (McsQueue.op b, McsQueue.result t b)) t bs).map
            Prod.snd := by
  subst hops hres
  rcases (implements m).results_eq as s .new (rep_init hi) hl with ⟨hresults, hall, hend⟩
  refine ⟨hall, hresults, hend.sound, ?_, ?_, fun t ht => ⟨?_, fun bs hbs hops => ?_⟩⟩
  · rw [hresults]
    exact LockQueue.claims_results _ _
  · rw [hresults]
    exact LockQueue.holders_results _ _ LockQueue.ok_new hall
  · have hrep := McsQueue.rep_init ht fun _ => Classical.arbitrary E
    -- There are nodes left to allocate.
    have hfin : {e | t.heap e ≠ none}.Finite := by
      simp only [ht.1, ne_eq, not_true_eq_false, Set.ofPred_false, Set.finite_empty]
    rcases McsQueue.exists_run _ t .new _ hrep hfin hall with ⟨bs, hbs, hops⟩
    exact ⟨bs, hbs, hops.symm⟩
  · -- Both return what the abstract lock does.
    have hinh : Inhabited E := ⟨Classical.arbitrary E⟩
    have hrep : ∃ entry, McsQueue.Rep t .new entry :=
      ⟨_, McsQueue.rep_init ht fun _ => Classical.arbitrary E⟩
    rw [hresults, hops, (McsQueue.implements.results_eq bs t .new hrep hbs).1]

/-- A ring of two slots. -/
def new : State Bool where
  head := 0
  tail := FREE
  ready _ := false
  node _ := none
  caller _ := .idle
  holder := .nobody

/-- A lock that is handed on, after a release that fails. -/
def handOn : List (Action Bool) :=
  [.loadTail false, .loadHead false, .exchange false false, .storeHead false,
    .loadTail true, .loadHead true, .exchange true false, .fill true, .setNext true,
    .unlock, .holder, .follow, .holder, .holder, .holder, .holder]

theorem handOn_legal : (system (2 ^ 1)).Legal new handOn :=
  ⟨rfl, ⟨_, rfl⟩, ⟨_, rfl⟩, ⟨_, rfl⟩, rfl, ⟨_, rfl⟩, ⟨_, rfl⟩, ⟨_, rfl⟩, ⟨_, rfl⟩, rfl,
    ⟨nofun, nofun⟩, rfl, ⟨nofun, nofun⟩, ⟨nofun, nofun⟩, ⟨nofun, nofun⟩, ⟨nofun, nofun⟩, trivial⟩

theorem refines_lockQueue_handOn :
    (trace (system (2 ^ 1)) (label (2 ^ 1)) new handOn).map Prod.snd =
      LockQueue.new.results [.startLock, .startLock, .setNext 1, .tryUnlock, .tryFollowHead] := by
  have hi : (system (2 ^ 1)).init new := ⟨rfl, rfl, fun _ => rfl, fun _ => rfl, fun _ => rfl, rfl⟩
  exact (refines_lockQueue (E := Nat) 1 new handOn hi handOn_legal _ _ rfl rfl).2.1

end

end RingBufQueue

end Delegate

end Cmpth

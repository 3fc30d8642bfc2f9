import Mathlib.Data.List.Chain
import Cmpth.Delegate.Mcs

/-!
# What `McsQueue` Frees

An entry is freed by the holder that moves on from it. A release moves on from
nothing: `try_unlock` clears `head` and `tail`, and the entry they pointed to is
freed by nobody. Until then the entries in memory are those between the two
ends, and a drop frees them all.

## Main definitions

* `Clean`: The entries in memory are those between head and tail.
* `Keeps`: The release does not succeed.

## Theorems

* `clean_iff`: The queue is clean exactly as long as no release succeeds.
* `unlock_leaks`: One lock and one release.
* `mem_entries`, `spans_entries`, `chain_entries`: The entries between head and tail.
* `Tidy.clean`, `tidy_init`, `modify_none`, `tidy_next`: What keeps the queue tidy.
* `not_clean_of_unlock`, `new_init`, `clean_iff_handOn`: What does not, and a run that does.
-/

namespace Cmpth

namespace Delegate

namespace McsQueue

variable {E : Type*} [DecidableEq E]

/-- The second entry is linked behind the first, or about to be. -/
def Follows (s : State E) (a b : E) : Prop :=
  s.nextOf a = some b ∨ ∃ i, s.pending i = some (a, b)

/-- The list is the chain from head to tail. -/
structure Spans (s : State E) (l : List E) : Prop where
  head : s.head = l.head?
  tail : s.tail = l.getLast?
  chain : l.IsChain (Follows s)

/-- The entries in memory are those of the chain, and a drop of the queue, when
    nobody is between two operations, leaves none. -/
structure Clean (s : State E) : Prop where
  entries : ∃ l, Spans s l ∧ ∀ e, s.heap e ≠ none ↔ e ∈ l
  dropped : (∀ i, s.pending i = none) → ∃ n, ∀ fuel, n ≤ fuel → ∃ freed heap,
    drop fuel s = some (freed, heap) ∧ ∀ e, heap e = none

/-- The step is not a release that succeeds. -/
def Keeps (s : State E) : Action E → Prop
  | .tryUnlock => s.tail ≠ s.head
  | _ => True

/-- The entries from the holder's on. -/
def entries (q : LockQueue) (entry : Nat → E) : List E :=
  (List.range' q.served (q.claimed - q.served)).map entry

/-- The queue is the abstract one and has the entries of its claims only. -/
structure Tidy (s : State E) (q : LockQueue) (entry : Nat → E) : Prop where
  rep : Rep s q entry
  live : ∀ e, s.heap e ≠ none → ∃ i, q.served ≤ i ∧ i < q.claimed ∧ e = entry i

section

variable {s : State E} {q : LockQueue} {entry : Nat → E}

omit [DecidableEq E] in
theorem mem_entries {e : E} :
    e ∈ entries q entry ↔ ∃ i, q.served ≤ i ∧ i < q.claimed ∧ e = entry i := by
  unfold entries
  rw [List.mem_map]
  constructor
  · rintro ⟨i, hi, rfl⟩
    rw [List.mem_range'_1] at hi
    exact ⟨i, hi.1, by omega, rfl⟩
  · rintro ⟨i, hlo, hhi, rfl⟩
    exact ⟨i, List.mem_range'_1.mpr ⟨hlo, by omega⟩, rfl⟩

omit [DecidableEq E] in
theorem spans_entries (h : Rep s q entry) : Spans s (entries q entry) := by
  have hle := h.ok.served
  -- The head, the tail, and the links between an entry and the next.
  refine ⟨?_, ?_, List.isChain_iff_getElem.mpr fun n hn => ?_⟩
  · unfold entries
    by_cases hq : q.served < q.claimed
    · rw [h.head_eq hq, show q.claimed - q.served = (q.claimed - q.served - 1) + 1 by omega]
      rfl
    · rw [h.head, if_neg hq, show q.claimed - q.served = 0 by omega]
      rfl
  · unfold entries
    by_cases hq : q.served < q.claimed
    · rw [h.tail_eq hq, List.getLast?_map, List.getLast?_range', if_neg (by omega)]
      simp only [Option.map_some]
      congr 2
      omega
    · rw [h.tail_none hq, show q.claimed - q.served = 0 by omega]
      rfl
  · unfold entries at hn ⊢
    rw [List.length_map, List.length_range'] at hn
    simp only [List.getElem_map, List.getElem_range', Nat.one_mul]
    have hj := h.joined (q.served + n) (by omega) (by omega)
    cases hl : q.linked (q.served + n + 1) with
    | true => exact .inl (hj.linked hl).1
    | false => exact .inr ⟨_, (hj.waiting hl).2⟩

omit [DecidableEq E] in
/-- Where nobody is about to link himself the entries are linked. -/
theorem chain_entries (h : Rep s q entry) (hp : ∀ i, s.pending i = none) (n : Nat) :
    ∀ i, q.served ≤ i → i + n = q.claimed →
      Chain (linksOf Entry.next s.heap) (if n = 0 then none else some (entry i))
        ((List.range' i n).map entry) := by
  -- By induction on how many entries are left.
  induction n with
  | zero => exact fun _ _ _ => rfl
  | succ n ih =>
      intro i hi hn
      rcases Option.ne_none_iff_exists'.mp (h.live i hi (by omega)) with ⟨e, he⟩
      have hlinks : linksOf Entry.next s.heap (entry i) = some (s.nextOf (entry i)) := by
        rw [linksOf, State.nextOf, he]
        rfl
      refine ⟨if_neg (Nat.succ_ne_zero n), s.nextOf (entry i), hlinks, ?_⟩
      have hnext : s.nextOf (entry i) = if n = 0 then none else some (entry (i + 1)) := by
        by_cases hz : n = 0
        · have hlast := h.last (by omega)
          rw [if_pos hz, ← hlast, show q.claimed - 1 = i by omega]
        · have hj := h.joined i hi (by omega)
          have hl : q.linked (i + 1) = true := by
            by_contra hl
            have hw := (hj.waiting (by simpa using hl)).2
            rw [hp] at hw
            cases hw
          rw [if_neg hz, (hj.linked hl).1]
      rw [hnext]
      exact ih (i + 1) (by omega) (by omega)

theorem Tidy.clean (h : Tidy s q entry) : Clean s := by
  have hle := h.rep.ok.served
  refine ⟨⟨entries q entry, spans_entries h.rep, fun e => ?_⟩, fun hp => ?_⟩
  · rw [mem_entries]
    refine ⟨h.live e, ?_⟩
    rintro ⟨i, hlo, hhi, rfl⟩
    exact h.rep.live i hlo hhi
  · have hchain := chain_entries h.rep hp (q.claimed - q.served) q.served le_rfl (by omega)
    have hhead : (if q.claimed - q.served = 0 then none else some (entry q.served)) = s.head := by
      by_cases hq : q.served < q.claimed
      · rw [if_neg (by omega), h.rep.head_eq hq]
      · rw [if_pos (by omega), h.rep.head, if_neg hq]
    rw [hhead] at hchain
    refine ⟨(entries q entry).length, fun fuel hf => ⟨_, _, freeFrom_eq hchain hf, fun e => ?_⟩⟩
    -- What is not in the chain was not there before.
    by_cases he : e ∈ entries q entry
    · exact if_pos he
    · refine (if_neg he).trans ?_
      by_contra hne
      exact he (mem_entries.mpr (h.live e hne))

omit [DecidableEq E] in
theorem tidy_init (hi : init s) (entry : Nat → E) : Tidy s .new entry :=
  ⟨rep_init hi entry, fun e he => absurd (hi.1 e) he⟩

theorem modify_none {e a : E} (f : Entry E → Entry E) (h : s.heap e = none) :
    s.modify a f e = none := by
  unfold State.modify
  by_cases he : e = a
  · rw [he, Function.update_self, ← he, h]
    rfl
  · rw [Function.update_of_ne he]
    exact h

/-- Every step but a release that succeeds keeps the queue tidy. -/
theorem tidy_next (h : Tidy s q entry) {a : Action E} (hg : guard s a) (hk : Keeps s a) :
    ∃ entry', Tidy (next s a) (q.after (op a)) entry' := by
  have hle := h.rep.ok.served
  cases a with
  -- The new entry is the last claim's.
  | startLock fresh =>
      refine ⟨Function.update entry q.claimed fresh, rep_startLock h.rep hg, fun e he => ?_⟩
      by_cases hf : e = fresh
      · refine ⟨q.claimed, hle, Nat.lt_succ_self _, ?_⟩
        rw [Function.update_self]
        exact hf
      · change Function.update s.heap fresh _ e ≠ none at he
        rw [Function.update_of_ne hf] at he
        rcases h.live e he with ⟨i, hlo, hhi, rfl⟩
        refine ⟨i, hlo, Nat.lt_succ_of_lt hhi, ?_⟩
        rw [Function.update_of_ne (by omega)]
  | setNext i =>
      refine ⟨entry, rep_setNext h.rep hg, fun e he => h.live e fun hnone => he ?_⟩
      change (s.setNext i).heap e = none
      unfold State.setNext
      cases s.pending i with
      | none => exact hnone
      | some x => exact modify_none _ (modify_none _ hnone)
  -- The entry that is followed is freed, and leaves the range.
  | tryFollowHead =>
      have hq := h.rep.locked_of_head hg
      refine ⟨entry, rep_tryFollowHead h.rep hq, fun e he => ?_⟩
      have he : s.tryFollowHead.heap e ≠ none := he
      unfold State.tryFollowHead at he
      rw [h.rep.head_eq hq] at he
      simp only [h.rep.next_head hq] at he
      by_cases hn : q.HasNext
      · rw [if_pos hn] at he
        rw [show q.after (op .tryFollowHead) = { q with served := q.served + 1 } from if_pos hn]
        have hne : e ≠ entry q.served := by
          rintro rfl
          exact he (Function.update_self ..)
        have hold : s.heap e ≠ none := by
          change Function.update s.heap (entry q.served) none e ≠ none at he
          rwa [Function.update_of_ne hne] at he
        rcases h.live e hold with ⟨i, hlo, hhi, rfl⟩
        have hi : i ≠ q.served := by
          rintro rfl
          exact hne rfl
        exact ⟨i, show q.served + 1 ≤ i by omega, hhi, rfl⟩
      · rw [if_neg hn] at he
        rw [show q.after (op .tryFollowHead) = q from if_neg hn]
        exact h.live e he
  -- The release fails, so nothing happens.
  | tryUnlock =>
      have hq := h.rep.locked_of_head hg
      have hk : s.tail ≠ s.head := hk
      refine ⟨entry, rep_tryUnlock h.rep hq, ?_⟩
      change ∀ e, s.tryUnlock.heap e ≠ none → _
      rw [show s.tryUnlock = s from if_neg hk, show q.after (op .tryUnlock) = q from
        if_neg fun he => hk ((h.rep.tail_eq_head_iff hq).mpr he)]
      exact h.live

/-- A release that succeeds leaves the holder's entry behind. -/
theorem not_clean_of_unlock (h : Tidy s q entry) {a : Action E} (hg : guard s a)
    (hk : ¬ Keeps s a) : ¬ Clean (next s a) := by
  cases a with
  | startLock | setNext | tryFollowHead => exact absurd trivial hk
  | tryUnlock =>
      have hq := h.rep.locked_of_head hg
      have hk : s.tail = s.head := not_not.mp hk
      rintro ⟨⟨l, hspans, hl⟩, _⟩
      have hnext : next s .tryUnlock =
          { s with
            head := none
            tail := none } := if_pos hk
      rw [hnext] at hspans hl
      have hnil : l = [] := List.head?_eq_none_iff.mp hspans.head.symm
      have hmem := (hl (entry q.served)).mp (h.rep.live q.served le_rfl hq)
      rw [hnil] at hmem
      cases hmem

end

/-- `McsQueue` leaks no entry in exactly the runs in which no release
    succeeds. -/
theorem clean_iff (s : State E) (as : List (Action E)) (hi : (system (E := E)).init s)
    (hl : system.Legal s as) : system.Throughout Clean s as ↔ system.Along Keeps s as := by
  by_cases hne : Nonempty E
  case neg =>
    -- Without an address for an entry nothing happens.
    have hempty : ∀ e : E, False := fun e => hne ⟨e⟩
    cases as with
    | nil =>
        refine ⟨fun _ => trivial, fun _ => ⟨⟨[], ⟨hi.2.2.1, hi.2.1, .nil⟩,
          fun e => (hempty e).elim⟩, fun _ => ⟨0, fun fuel _ => ?_⟩⟩⟩
        refine ⟨[], s.heap, ?_, fun e => (hempty e).elim⟩
        unfold drop
        rw [hi.2.2.1]
        cases fuel <;> rfl
    | cons a as =>
        cases a with
        | startLock fresh => exact (hempty fresh).elim
        | setNext i => exact absurd (hi.2.2.2.1 i) hl.1
        | tryFollowHead | tryUnlock => exact absurd hi.2.2.1 hl.1
  refine System.throughout_iff_along _ (C := Keeps) (I := fun s => ∃ q entry, Tidy s q entry)
    ?_ ?_ ?_ as s ?_ hl
  · rintro s ⟨q, entry, h⟩
    exact h.clean
  · rintro s a ⟨q, entry, h⟩ hg hk
    rcases tidy_next h hg hk with ⟨entry', h'⟩
    exact ⟨_, entry', h'⟩
  · rintro s a ⟨q, entry, h⟩ hg hk
    exact not_clean_of_unlock h hg hk
  · exact ⟨_, fun _ => Classical.arbitrary E, tidy_init hi _⟩

/-- A queue of which nobody has asked anything. -/
def new : State Nat where
  heap _ := none
  tail := none
  head := none
  pending _ := none
  claims := 0

theorem new_init : system.init new :=
  ⟨fun _ => rfl, rfl, rfl, fun _ => rfl, rfl⟩

/-- A lock that nobody else wants, and its release. -/
theorem unlock_leaks :
    system.init new ∧ system.Legal new [.startLock 0, .tryUnlock] ∧
      (new.heap 0 = none) ∧ (system.run new [.startLock 0, .tryUnlock]).heap 0 ≠ none ∧
      ¬ system.Throughout Clean new [.startLock 0, .tryUnlock] := by
  have hl : system.Legal new [.startLock 0, .tryUnlock] := ⟨rfl, nofun, trivial⟩
  refine ⟨new_init, hl, rfl, by decide, fun h => ?_⟩
  rcases System.throughout_run _ _ _ h with ⟨⟨l, hspans, hl⟩, _⟩
  have hnil : l = [] := List.head?_eq_none_iff.mp hspans.head.symm
  have hmem := (hl 0).mp (by decide)
  rw [hnil] at hmem
  cases hmem

/-- A lock that is handed on, after a release that fails. -/
def handOn : List (Action Nat) :=
  [.startLock 0, .startLock 1, .setNext 1, .tryUnlock, .tryFollowHead]

theorem clean_iff_handOn : system.Throughout Clean new handOn := by
  have hl : system.Legal new handOn := ⟨rfl, rfl, nofun, nofun, nofun, trivial⟩
  have hk : system.Along Keeps new handOn := ⟨trivial, trivial, trivial, nofun, trivial, trivial⟩
  exact (clean_iff new handOn new_init hl).mpr hk

end McsQueue

end Delegate

end Cmpth

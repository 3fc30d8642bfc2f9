import Mathlib.Data.List.Nodup
import Cmpth.Post.Ticket

/-!
# The Ledger of a Server

What the server of a post delegator keeps, whichever way it finds the posts: the
mark it last read of each producer, the batch it is preparing and the serves it
has made. Both delegators change it in the same four ways.

## Main definitions

* `Ledger`: What is served, and what is being prepared, is in order.
* `Bookkeeping`: The same, of what each thread has still to read.

## Theorems

* `ledger_new`: The ledger of a delegator that nobody has used.
* `Ledger.post`, `Ledger.begin`, `Ledger.collect`, `Ledger.serve`: What a delegator does keeps it
  so.
* `Ledger.grows`: The numbers handed out for a producer grow.
* `Ledger.covers`: Whoever has just been passed is covered.
* `Bookkeeping.congr`, `Bookkeeping.ledger`: What the bookkeeping depends on, and the ledger in it.
* `bookkeeping_turn`: A step of the thread that is the server.
-/

namespace Cmpth

namespace Post

variable {P : Type*} [DecidableEq P] {mark seen : P → Nat} {log : List (List (Ticket P))}
  {batch : List (Ticket P)}

/-- What is served, and what is being prepared, is in order. `rest` has the
    producers whose marks the serve that is being prepared has still to read; it
    is `none` while there is no such serve, and the batch is then of no
    account. -/
structure Ledger (mark seen : P → Nat) (log : List (List (Ticket P))) (batch : List (Ticket P))
    (rest : Option (List P)) : Prop where
  le : ∀ p, seen p ≤ mark p
  once : ∀ b ∈ log, (b.map Ticket.producer).Nodup
  made : ∀ t ∈ log.flatten ++ batch, 0 < t.seq ∧ t.seq ≤ mark t.producer
  served : rest = none → Handed log.flatten seen
  taken : ∀ l, rest = some l →
    Handed (log.flatten ++ batch) seen ∧ (batch.map Ticket.producer ++ l).Nodup

theorem ledger_new (hmark : ∀ p, mark p = 0) (hseen : ∀ p, seen p = 0) :
    Ledger mark seen [] [] none where
  le := fun p => Nat.le_of_eq ((hseen p).trans (hmark p).symm)
  once := fun _ hb => absurd hb List.not_mem_nil
  made := fun _ ht => absurd ht List.not_mem_nil
  served := fun _ => handed_nil hseen
  taken := nofun

/-- A post. -/
theorem Ledger.post {rest : Option (List P)} (h : Ledger mark seen log batch rest) (p : P) :
    Ledger (Function.update mark p (mark p + 1)) seen log batch rest := by
  have hle : ∀ q, mark q ≤ Function.update mark p (mark p + 1) q := by
    intro q
    by_cases hq : q = p
    · rw [hq, Function.update_self]
      exact Nat.le_succ _
    · exact Nat.le_of_eq (Function.update_of_ne hq ..).symm
  exact
    { le := fun q => Nat.le_trans (h.le q) (hle q)
      once := h.once
      made := fun t ht => ⟨(h.made t ht).1, Nat.le_trans (h.made t ht).2 (hle t.producer)⟩
      served := h.served
      taken := h.taken }

/-- The server is about to read the marks of the producers. -/
theorem Ledger.begin (h : Ledger mark seen log batch none) {l : List P} (hl : l.Nodup) :
    Ledger mark seen log [] (some l) where
  le := h.le
  once := h.once
  made := fun t ht => by
    rw [List.append_nil] at ht
    exact h.made t (List.mem_append_left _ ht)
  served := nofun
  taken := fun m hm => by
    cases hm
    rw [List.append_nil]
    exact ⟨h.served rfl, hl⟩

/-- The server reads the next mark. -/
theorem Ledger.collect {p : P} {l : List P} (h : Ledger mark seen log batch (some (p :: l))) :
    Ledger mark (Function.update seen p (collect p (mark p) (seen p) batch).1) log
      (collect p (mark p) (seen p) batch).2 (some l) where
  le := fun q => by
    by_cases hq : q = p
    · refine Nat.le_of_eq ?_
      rw [hq, Function.update_self, collect_fst]
    · rw [Function.update_of_ne hq]
      exact h.le q
  once := h.once
  made := fun t ht => by
    unfold Post.collect at ht
    by_cases hm : mark p ≠ seen p
    · rw [if_pos hm, ← List.append_assoc] at ht
      rcases List.mem_append.mp ht with ht | ht
      · exact h.made t ht
      · -- The new ticket has the mark, which has grown since the last one.
        cases List.mem_singleton.mp ht
        have hlt := Nat.lt_of_le_of_ne (h.le p) (Ne.symm hm)
        exact ⟨Nat.zero_lt_of_lt hlt, Nat.le_refl _⟩
    · rw [if_neg hm] at ht
      exact h.made t ht
  served := nofun
  taken := fun m hm => by
    cases hm
    rcases h.taken _ rfl with ⟨hhanded, hnodup⟩
    refine ⟨hhanded.collect (h.le p), ?_⟩
    rcases collect_producers p (mark p) (seen p) batch with hx | hx
    · rw [hx, List.append_assoc]
      exact hnodup
    · rw [hx]
      exact hnodup.sublist (List.Sublist.append_left (List.sublist_cons_self p l) _)

/-- The consumer is called with the batch, if there is anything to serve. -/
theorem Ledger.serve {l : List P} (h : Ledger mark seen log batch (some l)) :
    Ledger mark seen (if batch = [] then log else log ++ [batch]) batch none := by
  rcases h.taken l rfl with ⟨hhanded, hnodup⟩
  -- An empty batch is no call of the consumer.
  by_cases hb : batch = []
  · rw [if_pos hb]
    refine ⟨h.le, h.once, h.made, fun _ => ?_, nofun⟩
    rwa [hb, List.append_nil] at hhanded
  · rw [if_neg hb]
    have hflat : (log ++ [batch]).flatten = log.flatten ++ batch := by
      rw [List.flatten_append, List.flatten_singleton]
    refine ⟨h.le, fun b hmem => ?_, fun t ht => ?_, fun _ => ?_, nofun⟩
    · rcases List.mem_append.mp hmem with hmem | hmem
      · exact h.once b hmem
      · rw [List.mem_singleton.mp hmem]
        exact (List.nodup_append.mp hnodup).1
    · rw [hflat] at ht
      rcases List.mem_append.mp ht with ht | ht
      · exact h.made t ht
      · exact h.made t (List.mem_append_right _ ht)
    · rw [hflat]
      exact hhanded

/-- The numbers handed out for a producer grow. -/
theorem Ledger.grows {rest : Option (List P)} (h : Ledger mark seen log batch rest) (p : P) :
    (seqs p log.flatten).Pairwise (· < ·) := by
  cases rest with
  | none => exact (List.pairwise_cons.mp (h.served rfl p).1).2
  | some l =>
      have hall := ((h.taken l rfl).1 p).1
      unfold seqs at hall
      rw [List.filter_append, List.map_append] at hall
      exact (List.pairwise_append.mp (List.pairwise_cons.mp hall).2).1

/-- Whoever has just been passed is covered. -/
theorem Ledger.covers {l : List P} (h : Ledger mark seen log batch (some l)) {p : P}
    (hp : seen p = mark p) {n : Nat} (hpos : 0 < n) (hn : n ≤ mark p) :
    ∃ t ∈ log.flatten ++ batch, t.producer = p ∧ n ≤ t.seq :=
  (h.taken l rfl).1.covers hpos (hp ▸ hn)

section

variable {T : Type*} {rest rest' : T → List P → Prop}

/-- The ledger, by what each thread has still to read before it serves. A thread
    that prepares no serve has no such list. -/
structure Bookkeeping (rest : T → List P → Prop) (mark seen : P → Nat)
    (log : List (List (Ticket P))) (batch : List (Ticket P)) : Prop where
  idle : (∀ t l, ¬ rest t l) → Ledger mark seen log batch none
  taken : ∀ t l, rest t l → Ledger mark seen log batch (some l)

theorem Bookkeeping.congr (h : Bookkeeping rest mark seen log batch)
    (hrest : ∀ t l, rest' t l ↔ rest t l) : Bookkeeping rest' mark seen log batch :=
  ⟨fun hnone => h.idle fun t l hl => hnone t l ((hrest t l).mpr hl),
    fun t l hl => h.taken t l ((hrest t l).mp hl)⟩

/-- A step of the thread that is the server, so that the others prepare no
    serve. -/
theorem bookkeeping_turn (t : T) (hothers : ∀ t', t' ≠ t → ∀ l, ¬ rest t' l)
    (hnone : (∀ l, ¬ rest t l) → Ledger mark seen log batch none)
    (hsome : ∀ l, rest t l → Ledger mark seen log batch (some l)) :
    Bookkeeping rest mark seen log batch := by
  refine ⟨fun hx => hnone (hx t), fun t' l hl => ?_⟩
  by_cases hne : t' = t
  · rw [hne] at hl
    exact hsome l hl
  · exact absurd hl (hothers t' hne l)

theorem Bookkeeping.post (h : Bookkeeping rest mark seen log batch) (p : P) :
    Bookkeeping rest (Function.update mark p (mark p + 1)) seen log batch :=
  ⟨fun hnone => (h.idle hnone).post p, fun t l hl => (h.taken t l hl).post p⟩

theorem Bookkeeping.ledger (h : Bookkeeping rest mark seen log batch) :
    ∃ l, Ledger mark seen log batch l := by
  by_cases hnone : ∀ t l, ¬ rest t l
  · exact ⟨none, h.idle hnone⟩
  · push Not at hnone
    rcases hnone with ⟨t, l, hl⟩
    exact ⟨some l, h.taken t l hl⟩

end

end Post

end Cmpth

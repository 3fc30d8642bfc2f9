import Mathlib.Data.List.Flatten
import Mathlib.Logic.Function.Basic
import Mathlib.Tactic.Common
import Cmpth.Core.System

/-!
# Tickets

What a serve covers, and what it means that the serves of a post delegator cover
every post: stated of any system that posts and serves, so that both delegators
can be compared with it.

A producer is named by its thread. The numbers of posts do not wrap.

## Main definitions

* `Ticket`: One producer's posts up to a number.
* `collect`: Notes a producer whose mark has changed.
* `seqs`: The numbers that are handed out for a producer.
* `Handed`: The numbers handed out grow to the last one served.
* `PostSystem`, `ServeContract`: The contract of `PostDelegator`.

## Theorems

* `grows_nil`, `Grows.mem`: Numbers that grow, up to the last.
* `Grows.le`: The last of the numbers is the largest.
* `Grows.concat`: A larger number may follow.
* `mem_seqs`, `seqs_concat`: The numbers of one producer.
* `handed_nil`, `collect_fst`, `Handed.lastServed_eq`: The last number that was handed out.
* `Handed.collect`: `collect` keeps the tickets in order.
* `collect_producers`: `collect` lists at most the producer it is called for.
* `Handed.covers`: What has been served covers every post up to it.
-/

namespace Cmpth

namespace Post

variable {P : Type*}

/-- One producer's posts up to `seq`. -/
structure Ticket (P : Type*) where
  producer : P
  seq : Nat
  deriving DecidableEq, Repr

/-- Notes the producer in the batch if it has posts the last serve did not
    cover. -/
def collect (p : P) (mark seen : Nat) (batch : List (Ticket P)) : Nat × List (Ticket P) :=
  if mark ≠ seen then (mark, batch ++ [⟨p, mark⟩]) else (seen, batch)

/-- The numbers increase up to `last`, which is 0 when there are none. -/
def Grows (l : List Nat) (last : Nat) : Prop :=
  (0 :: l).Pairwise (· < ·) ∧ l.getLastD 0 = last

theorem grows_nil : Grows [] 0 :=
  ⟨List.pairwise_singleton _ _, rfl⟩

/-- The last of the numbers is the largest. -/
theorem Grows.le {l : List Nat} {last : Nat} (h : Grows l last) {n : Nat} (hn : n ∈ l) :
    n ≤ last := by
  rcases h with ⟨hpair, hlast⟩
  have hne : l ≠ [] := List.ne_nil_of_mem hn
  have hsplit := List.dropLast_concat_getLast hne
  have heq : l.getLast hne = last := by
    rw [← hlast, List.getLastD_eq_getLast?, List.getLast?_eq_some_getLast hne]
    rfl
  rw [heq] at hsplit
  rw [← hsplit] at hn hpair
  rcases List.mem_append.mp hn with hn | hn
  · have hcross := (List.pairwise_append.mp (List.pairwise_cons.mp hpair).2).2.2
    exact Nat.le_of_lt (hcross n hn last List.mem_cons_self)
  · exact Nat.le_of_eq (List.mem_singleton.mp hn)

theorem Grows.mem {l : List Nat} {last : Nat} (h : Grows l last) (hpos : 0 < last) : last ∈ l := by
  rcases h with ⟨_, rfl⟩
  cases l with
  | nil => exact absurd hpos (Nat.lt_irrefl _)
  | cons n l =>
      rw [List.getLastD_eq_getLast?, List.getLast?_eq_some_getLast (List.cons_ne_nil n l)]
      exact List.getLast_mem _

/-- A larger number may follow. -/
theorem Grows.concat {l : List Nat} {last n : Nat} (h : Grows l last) (hn : last < n) :
    Grows (l ++ [n]) n := by
  refine ⟨?_, by simp⟩
  rw [← List.cons_append, List.pairwise_append]
  refine ⟨h.1, List.pairwise_singleton _ _, fun a ha b hb => ?_⟩
  rw [List.mem_singleton.mp hb]
  rcases List.mem_cons.mp ha with rfl | ha
  · exact Nat.lt_of_le_of_lt (Nat.zero_le _) hn
  · exact Nat.lt_of_le_of_lt (h.le ha) hn

section

variable [DecidableEq P]

/-- The numbers that are handed out for the producer. -/
def seqs (p : P) (tickets : List (Ticket P)) : List Nat :=
  (tickets.filter fun t => t.producer = p).map Ticket.seq

/-- The last number handed out for the producer, or 0. -/
def lastServed (p : P) (tickets : List (Ticket P)) : Nat :=
  (seqs p tickets).getLastD 0

/-- The numbers handed out for each producer grow to the last one served. -/
def Handed (tickets : List (Ticket P)) (seen : P → Nat) : Prop :=
  ∀ p, Grows (seqs p tickets) (seen p)

theorem mem_seqs {p : P} {n : Nat} {tickets : List (Ticket P)} :
    n ∈ seqs p tickets ↔ ⟨p, n⟩ ∈ tickets := by
  unfold seqs
  simp only [List.mem_map, List.mem_filter, decide_eq_true_eq]
  constructor
  · rintro ⟨⟨p', n'⟩, ⟨hmem, rfl⟩, rfl⟩
    exact hmem
  · exact fun hmem => ⟨⟨p, n⟩, ⟨hmem, rfl⟩, rfl⟩

theorem seqs_concat (p q : P) (n : Nat) (tickets : List (Ticket P)) :
    seqs p (tickets ++ [⟨q, n⟩]) = if q = p then seqs p tickets ++ [n] else seqs p tickets := by
  unfold seqs
  rw [List.filter_append, List.map_append]
  by_cases hq : q = p
  · rw [if_pos hq, List.filter_cons_of_pos (by simpa using hq)]
    rfl
  · rw [if_neg hq, List.filter_cons_of_neg (by simpa using hq)]
    exact List.append_nil _

theorem handed_nil {seen : P → Nat} (h : ∀ p, seen p = 0) : Handed [] seen := fun p => by
  rw [h]
  exact grows_nil

/-- `collect` keeps the tickets in order. -/
theorem Handed.collect {done batch : List (Ticket P)} {seen : P → Nat} {p : P} {mark : Nat}
    (h : Handed (done ++ batch) seen) (hle : seen p ≤ mark) :
    Handed (done ++ (collect p mark (seen p) batch).2)
      (Function.update seen p (collect p mark (seen p) batch).1) := by
  unfold Post.collect
  by_cases hm : mark ≠ seen p
  · rw [if_pos hm]
    intro q
    rw [← List.append_assoc, seqs_concat]
    by_cases hq : p = q
    · subst hq
      rw [if_pos rfl, Function.update_self]
      exact (h p).concat (Nat.lt_of_le_of_ne hle (Ne.symm hm))
    · rw [if_neg hq, Function.update_of_ne (Ne.symm hq)]
      exact h q
  · rw [if_neg hm]
    simp only [Function.update_eq_self]
    exact h

omit [DecidableEq P] in
theorem collect_fst (p : P) (mark seen : Nat) (batch : List (Ticket P)) :
    (collect p mark seen batch).1 = mark := by
  unfold collect
  by_cases hm : mark ≠ seen
  · rw [if_pos hm]
  · rw [if_neg hm]
    exact (not_not.mp hm).symm

omit [DecidableEq P] in
/-- `collect` lists at most the producer it is called for. -/
theorem collect_producers (p : P) (mark seen : Nat) (batch : List (Ticket P)) :
    (collect p mark seen batch).2.map Ticket.producer = batch.map Ticket.producer ++ [p] ∨
      (collect p mark seen batch).2 = batch := by
  unfold collect
  by_cases hm : mark ≠ seen
  · rw [if_pos hm]
    exact .inl (by simp)
  · rw [if_neg hm]
    exact .inr rfl

/-- What has been served covers every post up to it. -/
theorem Handed.covers {tickets : List (Ticket P)} {seen : P → Nat} (h : Handed tickets seen)
    {p : P} {n : Nat} (hpos : 0 < n) (hn : n ≤ seen p) :
    ∃ t ∈ tickets, t.producer = p ∧ n ≤ t.seq :=
  ⟨⟨p, seen p⟩, mem_seqs.mp ((h p).mem (Nat.lt_of_lt_of_le hpos hn)), rfl, hn⟩

theorem Handed.lastServed_eq {tickets : List (Ticket P)} {seen : P → Nat} (h : Handed tickets seen)
    (p : P) : lastServed p tickets = seen p :=
  (h p).2

/-- A delegator as the contract sees it: the posts made by each producer, the
    serves made, the batch of the serve that is being prepared, the step that
    reads a producer's mark, and a serve with nothing else going on. -/
structure PostSystem (P T σ α : Type*) where
  system : System σ α
  mark : σ → P → Nat
  log : σ → List (List (Ticket P))
  batch : σ → List (Ticket P)
  reads : σ → α → Option P
  /-- No operation is in flight. -/
  Quiet : σ → Prop
  /-- `serve_now` by the thread, and its next step. -/
  serve : T → α
  step : T → α

variable {T σ α : Type*}

/-- A serve by the thread, with nothing else going on, that takes `n` steps
    after its first. -/
def PostSystem.alone (X : PostSystem P T σ α) (t : T) (n : Nat) : List α :=
  X.serve t :: List.replicate n (X.step t)

/-- Each serve lists a producer at most once, with numbers that grow from call
    to call and are those of posts that have been made. A post made before its
    producer's mark is read is covered. When no operation is in flight, one more
    serve covers everything. -/
structure ServeContract (X : PostSystem P T σ α) (s : σ) : Prop where
  once : ∀ b ∈ X.log s, (b.map Ticket.producer).Nodup
  grows : ∀ p, (seqs p (X.log s).flatten).Pairwise (· < ·)
  made : ∀ t ∈ (X.log s).flatten, 0 < t.seq ∧ t.seq ≤ X.mark s t.producer
  covers : ∀ a p, X.system.guard s a → X.reads s a = some p → ∀ n, 0 < n → n ≤ X.mark s p →
    ∃ t ∈ (X.log (X.system.next s a)).flatten ++ X.batch (X.system.next s a),
      t.producer = p ∧ n ≤ t.seq
  settles : X.Quiet s → ∀ t, ∃ n, X.system.Legal s (X.alone t n) ∧
    X.Quiet (X.system.run s (X.alone t n)) ∧
    ∀ p, X.mark (X.system.run s (X.alone t n)) p = X.mark s p ∧
      lastServed p (X.log (X.system.run s (X.alone t n))).flatten = X.mark s p

end

end Post

end Cmpth

import Mathlib.Logic.Function.Basic
import Mathlib.Tactic.Common

/-!
# Linked Lists in Memory

Null-terminated chains of nodes linked by pointers, as lists.

Memory is its links: `next n` is the pointer that node `n` holds, and `none`
for an address at which there is no node. A chain is what the links say it is,
so that no node comes up in it twice: from a node that did, the links would
have to lead both past it and back to it.

## Main definitions

* `Chain`: The nodes from a pointer up to the null pointer.
* `linksOf`: The links of a memory that holds more than links.
* `freeFrom`: Freeing a chain from its head on.

## Theorems

* `Chain.unique`: The links determine the chain.
* `Chain.nodup`: A chain is acyclic.
* `Chain.update`: A link elsewhere does not matter.
* `Chain.splice`: Linking the last node of one chain to the first of another.
* `freeFrom_eq`: A chain is freed, each node of it once.
* `Chain.eq_nil`, `Chain.eq_cons`, `Chain.head_eq`, `Chain.tail`: A chain, by its head.
* `Chain.linked`, `Chain.from_mem`: The nodes of a chain, and the chain from one of them.
* `Chain.congr`, `Chain.push`: What a chain depends on, and a longer one.
* `linksOf_update`, `linksOf_cleared`, `cleared_nil`, `cleared_cleared`, `cleared_update`: The links
  of a memory as nodes are freed.
-/

namespace Cmpth

variable {N : Type*} {next : N → Option (Option N)}

/-- The nodes from the pointer up to the null pointer, in this order. -/
def Chain (next : N → Option (Option N)) : Option N → List N → Prop
  | p, [] => p = none
  | p, n :: l => p = some n ∧ ∃ q, next n = some q ∧ Chain next q l

theorem Chain.eq_nil {l : List N} (h : Chain next none l) : l = [] := by
  cases l with
  | nil => rfl
  | cons n l => exact nomatch h.1

theorem Chain.eq_cons {n : N} {l : List N} (h : Chain next (some n) l) :
    ∃ q rest, l = n :: rest ∧ next n = some q ∧ Chain next q rest := by
  cases l with
  | nil => exact nomatch (show some n = none from h)
  | cons m rest =>
      rcases h with ⟨hp, q, hq, hrest⟩
      cases hp
      exact ⟨q, rest, rfl, hq, hrest⟩

/-- The head pointer is that of the list. -/
theorem Chain.head_eq {p : Option N} {l : List N} (h : Chain next p l) : p = l.head? := by
  cases l with
  | nil => exact h
  | cons n l => exact h.1

theorem Chain.tail {p : Option N} {n : N} {l : List N} (h : Chain next p (n :: l)) :
    Chain next ((next n).bind id) l := by
  rcases h with ⟨_, q, hq, hl⟩
  rwa [hq]

/-- There is a node at every address of the chain. -/
theorem Chain.linked {p : Option N} {l : List N} (h : Chain next p l) {n : N} (hn : n ∈ l) :
    next n ≠ none := by
  induction l generalizing p with
  | nil => cases hn
  | cons m l ih =>
      rcases h with ⟨_, q, hq, hl⟩
      rcases List.mem_cons.mp hn with rfl | hn
      · rw [hq]
        nofun
      · exact ih hl hn

/-- The links determine the chain. -/
theorem Chain.unique {p : Option N} {l m : List N} (hl : Chain next p l) (hm : Chain next p m) :
    l = m := by
  induction l generalizing p m with
  | nil =>
      rw [show p = none from hl] at hm
      exact hm.eq_nil.symm
  | cons n l ih =>
      rcases hl with ⟨rfl, q, hq, hl⟩
      rcases hm.eq_cons with ⟨r, rest, rfl, hr, hrest⟩
      rw [hq] at hr
      cases hr
      rw [ih hl hrest]

/-- The chain from a later node is the rest of the chain. -/
theorem Chain.from_mem {p : Option N} {l : List N} {n : N} (h : Chain next p l) (hn : n ∈ l) :
    ∃ m, Chain next (some n) (n :: m) ∧ m.length < l.length := by
  induction l generalizing p with
  | nil => cases hn
  | cons k l ih =>
      rcases h with ⟨rfl, q, hq, hl⟩
      rcases List.mem_cons.mp hn with rfl | hn
      · exact ⟨l, ⟨rfl, q, hq, hl⟩, by simp⟩
      · rcases ih hl hn with ⟨m, hm, hlt⟩
        exact ⟨m, hm, by simp; omega⟩

/-- A chain is acyclic. -/
theorem Chain.nodup {p : Option N} {l : List N} (h : Chain next p l) : l.Nodup := by
  induction l generalizing p with
  | nil => exact List.nodup_nil
  | cons n l ih =>
      rcases h with ⟨rfl, q, hq, hl⟩
      refine List.nodup_cons.mpr ⟨fun hn => ?_, ih hl⟩
      -- From a second visit on, the links lead through a shorter chain.
      rcases hl.from_mem hn with ⟨m, hm, hlt⟩
      have heq : n :: l = n :: m := Chain.unique ⟨rfl, q, hq, hl⟩ hm
      cases heq
      omega

/-- A chain depends on the links of its nodes only. -/
theorem Chain.congr {next' : N → Option (Option N)} {p : Option N} {l : List N}
    (h : Chain next p l) (heq : ∀ n ∈ l, next' n = next n) : Chain next' p l := by
  induction l generalizing p with
  | nil => exact h
  | cons n l ih =>
      rcases h with ⟨hp, q, hq, hl⟩
      refine ⟨hp, q, ?_, ih hl fun m hm => heq m (List.mem_cons_of_mem _ hm)⟩
      rw [heq n List.mem_cons_self, hq]

section

variable [DecidableEq N]

/-- A link elsewhere does not matter. -/
theorem Chain.update {p : Option N} {l : List N} {n : N} {x : Option (Option N)}
    (h : Chain next p l) (hn : n ∉ l) : Chain (Function.update next n x) p l := by
  refine h.congr fun m hm => Function.update_of_ne ?_ ..
  rintro rfl
  exact hn hm

/-- A node before the chain. -/
theorem Chain.push {p : Option N} {l : List N} {n : N} (h : Chain next p l) (hn : n ∉ l) :
    Chain (Function.update next n (some p)) (some n) (n :: l) :=
  ⟨rfl, p, Function.update_self .., h.update hn⟩

/-- Linking the last node of one chain to the first of another. -/
theorem Chain.splice {p q : Option N} {l m : List N} {a : N} (hl : Chain next p l)
    (hm : Chain next q m) (ha : l.getLast? = some a) (hdis : a ∉ m) :
    Chain (Function.update next a (some q)) p (l ++ m) := by
  induction l generalizing p with
  | nil => cases ha
  | cons n l ih =>
      have hnodup := hl.nodup
      rcases hl with ⟨rfl, r, hr, hl⟩
      cases l with
      | nil =>
          rw [List.getLast?_singleton] at ha
          cases ha
          exact hm.push hdis
      | cons k l =>
          rw [List.getLast?_cons_cons] at ha
          -- The last node is further on, so that this link stays.
          have hne : n ≠ a := by
            rintro rfl
            exact (List.nodup_cons.mp hnodup).1 (List.mem_of_getLast? ha)
          refine ⟨rfl, r, ?_, ih hl ha⟩
          rw [Function.update_of_ne hne, hr]

section

variable {α : Type*} {link : α → Option N}

/-- The links of a memory, by the pointer that is part of each node. -/
def linksOf (link : α → Option N) (heap : N → Option α) (n : N) : Option (Option N) :=
  (heap n).map link

/-- What is left of a memory when some nodes have been freed. -/
def cleared (heap : N → Option α) (freed : List N) (n : N) : Option α :=
  if n ∈ freed then none else heap n

/-- Frees the nodes from the pointer on, reading each link before its node is
    freed. Reading a node that is not there fails. The result lists the nodes in
    the order they are freed in. -/
def freeFrom (link : α → Option N) : Nat → (N → Option α) → Option N →
    Option (List N × (N → Option α))
  | _, heap, none => some ([], heap)
  | 0, _, some _ => none
  | fuel + 1, heap, some p =>
      match heap p with
      | none => none
      | some node =>
          (freeFrom link fuel (Function.update heap p none) (link node)).map fun r =>
            (p :: r.1, r.2)

theorem linksOf_update (heap : N → Option α) (n : N) (x : Option α) :
    linksOf link (Function.update heap n x) =
      Function.update (linksOf link heap) n (x.map link) := by
  funext m
  by_cases hm : m = n
  · subst hm
    simp only [linksOf, Function.update_self]
  · simp only [linksOf, Function.update_of_ne hm]

theorem linksOf_cleared {heap : N → Option α} {freed : List N} {n : N} (hn : n ∉ freed) :
    linksOf link (cleared heap freed) n = linksOf link heap n := by
  rw [linksOf, cleared, if_neg hn]
  rfl

theorem cleared_nil (heap : N → Option α) : cleared heap [] = heap :=
  funext fun _ => if_neg List.not_mem_nil

theorem cleared_cleared (heap : N → Option α) (l m : List N) :
    cleared (cleared heap l) m = cleared heap (l ++ m) := by
  funext n
  unfold cleared
  by_cases hn : n ∈ m
  · rw [if_pos hn, if_pos (List.mem_append_right _ hn)]
  · simp only [List.mem_append, hn, or_false, if_false]

theorem cleared_update {heap : N → Option α} {n : N} {l : List N} (hn : n ∉ l) :
    cleared (Function.update heap n none) l = cleared heap (n :: l) := by
  funext m
  unfold cleared
  by_cases hm : m = n
  · rw [hm, if_neg hn, Function.update_self, if_pos List.mem_cons_self]
  · simp only [List.mem_cons, hm, false_or, Function.update_of_ne hm]

/-- A chain is freed from its head on, each node of it once. -/
theorem freeFrom_eq {l : List N} {fuel : Nat} {heap : N → Option α} {p : Option N}
    (h : Chain (linksOf link heap) p l) (hf : l.length ≤ fuel) :
    freeFrom link fuel heap p = some (l, cleared heap l) := by
  -- By induction on the chain, a node of fuel for each node.
  induction l generalizing fuel heap p with
  | nil =>
      rw [show p = none from h, cleared_nil]
      cases fuel <;> rfl
  | cons n l ih =>
      have hn := (List.nodup_cons.mp h.nodup).1
      rcases h with ⟨rfl, q, hq, hl⟩
      cases fuel with
      | zero => exact absurd hf (Nat.not_succ_le_zero _)
      | succ fuel =>
          cases hnd : heap n with
          | none =>
              rw [linksOf, hnd] at hq
              cases hq
          | some nd =>
              rw [linksOf, hnd] at hq
              cases hq
              have hrest : Chain (linksOf link (Function.update heap n none)) (link nd) l := by
                rw [linksOf_update]
                exact hl.update hn
              unfold freeFrom
              simp only [hnd, ih hrest (Nat.le_of_succ_le_succ hf), Option.map_some,
                cleared_update hn]

end

end

end Cmpth

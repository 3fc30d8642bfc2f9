import Mathlib.Logic.Function.Basic
import Mathlib.Tactic.Common

/-!
# Disjoint Lists

A family of lists no two of which have a node in common, by the place each node
is at.

That lists are disjoint says something about every two of them. That each node
has a place says something about one at a time, and is as easily kept when
nodes move.

## Main definitions

* `Located`: Each node is in the list of its place only.
* `Placed`: And only once.

## Theorems

* `Located.once`: A node is in exactly one list, or in none.
* `Located.pop`, `Located.push`, `Located.move`: How places change.
* `Placed.take`, `Placed.put`, `Placed.move`: How a node is moved out of the
  middle of a list.
* `Placed.gone`, `Placed.fresh`, `Placed.shift`: The same, up to the order of the lists.
* `Placed.append`, `Placed.moveHead`: How a list is used as a queue.
* `Placed.moveAll`: How all of a list moves.
* `Located.congr`, `Located.not_mem`, `untouched`, `Placed.mem`, `Placed.perm`: What the places say
  of the lists.
-/

namespace Cmpth

variable {ι N : Type*} {f : ι → List N} {spot : N → Option ι}

/-- Each node is in the list of its place, if it has one, and in no other. -/
def Located (f : ι → List N) (spot : N → Option ι) : Prop :=
  ∀ x n, n ∈ f x ↔ spot n = some x

theorem Located.congr (h : Located f spot) {g : ι → List N} {spot' : N → Option ι}
    (hf : ∀ x, g x = f x) (hs : ∀ n, spot' n = spot n) : Located g spot' := by
  intro x n
  rw [hf x, hs n]
  exact h x n

theorem Located.not_mem (h : Located f spot) {x : ι} {n : N} (hn : spot n ≠ some x) :
    n ∉ f x :=
  fun hm => hn ((h x n).mp hm)

theorem Located.once (h : Located f spot) {n : N} (hn : spot n ≠ none) : ∃! x, n ∈ f x := by
  rcases Option.ne_none_iff_exists'.mp hn with ⟨x, hx⟩
  refine ⟨x, (h x n).mpr hx, fun y hy => ?_⟩
  have hxy : some x = some y := hx.symm.trans ((h y n).mp hy)
  exact (Option.some.inj hxy).symm

section

variable [DecidableEq ι] [DecidableEq N]

omit [DecidableEq N] in
/-- Lists that nothing leaves or enters. -/
theorem untouched {x y z : ι} {l l' : List N} (hx : z ≠ x) (hy : z ≠ y) :
    Function.update (Function.update f x l) y l' z = f z := by
  rw [Function.update_of_ne hy, Function.update_of_ne hx]

theorem Located.pop (h : Located f spot) {x : ι} {n : N} {rest : List N}
    (hf : f x = n :: rest) (hn : n ∉ rest) :
    Located (Function.update f x rest) (Function.update spot n none) := by
  intro y m
  have hx : spot n = some x := (h x n).mp (by rw [hf]; exact List.mem_cons_self)
  by_cases hm : m = n
  · subst hm
    rw [Function.update_self]
    refine ⟨fun hmem => absurd hmem ?_, nofun⟩
    by_cases hy : y = x
    · rwa [hy, Function.update_self]
    · rw [Function.update_of_ne hy]
      exact h.not_mem (by rw [hx]; exact fun he => hy (Option.some.inj he).symm)
  · rw [Function.update_of_ne hm, ← h y m]
    by_cases hy : y = x
    · rw [hy, Function.update_self, hf, List.mem_cons, or_iff_right hm]
    · rw [Function.update_of_ne hy]

theorem Located.push (h : Located f spot) {n : N} (hn : spot n = none) (x : ι) :
    Located (Function.update f x (n :: f x)) (Function.update spot n (some x)) := by
  intro y m
  by_cases hm : m = n
  · subst hm
    rw [Function.update_self]
    by_cases hy : y = x
    · rw [hy, Function.update_self]
      exact ⟨fun _ => rfl, fun _ => List.mem_cons_self⟩
    · rw [Function.update_of_ne hy]
      refine ⟨fun hmem => absurd hmem (h.not_mem (by rw [hn]; nofun)), fun he => ?_⟩
      exact absurd (Option.some.inj he).symm hy
  · rw [Function.update_of_ne hm, ← h y m]
    by_cases hy : y = x
    · rw [hy, Function.update_self, List.mem_cons, or_iff_right hm]
    · rw [Function.update_of_ne hy]

/-- All of a list moves before another. -/
theorem Located.move (h : Located f spot) (x y : ι) :
    Located (Function.update (Function.update f x []) y (f x ++ f y))
      (fun n => if n ∈ f x then some y else spot n) := by
  intro z m
  by_cases hz : z = y
  · subst hz
    rw [Function.update_self, List.mem_append, h z m]
    change _ ↔ (if m ∈ f x then some z else spot m) = some z
    by_cases hm : m ∈ f x
    · rw [if_pos hm]
      exact ⟨fun _ => rfl, fun _ => .inl hm⟩
    · rw [if_neg hm, or_iff_right hm]
  · rw [Function.update_of_ne hz]
    by_cases hm : m ∈ f x
    · simp only [if_pos hm]
      refine ⟨fun hmem => ?_, fun he => absurd (Option.some.inj he).symm hz⟩
      by_cases hzx : z = x
      · rw [hzx, Function.update_self] at hmem
        cases hmem
      · -- A node of the list that moves is in no other.
        rw [Function.update_of_ne hzx] at hmem
        have hsame : some x = some z := ((h x m).mp hm).symm.trans ((h z m).mp hmem)
        exact absurd (Option.some.inj hsame).symm hzx
    · simp only [if_neg hm, ← h z m]
      by_cases hzx : z = x
      · rw [hzx, Function.update_self]
        exact iff_of_false (List.not_mem_nil) hm
      · rw [Function.update_of_ne hzx]

/-- Each node is in the list of its place, if it has one, once, and in no
    other. -/
structure Placed (f : ι → List N) (spot : N → Option ι) : Prop where
  located : Located f spot
  nodup : ∀ x, (f x).Nodup

omit [DecidableEq ι] [DecidableEq N] in
theorem Placed.mem (h : Placed f spot) {x : ι} {n : N} : n ∈ f x ↔ spot n = some x :=
  h.located x n

theorem Placed.take (h : Placed f spot) {x : ι} {n : N} (hn : n ∈ f x) :
    Placed (Function.update f x ((f x).erase n)) (Function.update spot n none) where
  located := by
    intro y m
    have hx : spot n = some x := h.mem.mp hn
    -- The token that is taken is nowhere; of the others nothing changes.
    by_cases hm : m = n
    · subst hm
      rw [Function.update_self]
      refine ⟨fun hmem => absurd hmem ?_, nofun⟩
      by_cases hy : y = x
      · rw [hy, Function.update_self]
        exact (h.nodup x).not_mem_erase
      · rw [Function.update_of_ne hy]
        exact h.located.not_mem (by rw [hx]; exact fun he => hy (Option.some.inj he).symm)
    · rw [Function.update_of_ne hm, ← h.mem]
      by_cases hy : y = x
      · rw [hy, Function.update_self, List.mem_erase_of_ne hm]
      · rw [Function.update_of_ne hy]
  nodup := by
    intro y
    by_cases hy : y = x
    · rw [hy, Function.update_self]
      exact (h.nodup x).erase n
    · rw [Function.update_of_ne hy]
      exact h.nodup y

theorem Placed.put (h : Placed f spot) {n : N} (hn : spot n = none) (x : ι) :
    Placed (Function.update f x (n :: f x)) (Function.update spot n (some x)) where
  located := h.located.push hn x
  nodup := by
    intro y
    by_cases hy : y = x
    · rw [hy, Function.update_self]
      refine List.nodup_cons.mpr ⟨fun hmem => ?_, h.nodup x⟩
      rw [h.mem.mp hmem] at hn
      cases hn
    · rw [Function.update_of_ne hy]
      exact h.nodup y

/-- A node moves from one list to the head of another. -/
theorem Placed.move (h : Placed f spot) {x y : ι} {n : N} (hn : n ∈ f x) (hxy : y ≠ x) :
    Placed (Function.update (Function.update f x ((f x).erase n)) y (n :: f y))
      (Function.update spot n (some y)) := by
  have htaken := (h.take hn).put (Function.update_self n none spot) y
  rwa [Function.update_of_ne hxy, Function.update_idem] at htaken

omit [DecidableEq ι] [DecidableEq N] in
/-- The order within the lists does not matter. -/
theorem Placed.perm (h : Placed f spot) {g : ι → List N} (hg : ∀ x, (g x).Perm (f x)) :
    Placed g spot where
  located x n := (hg x).mem_iff.trans (h.located x n)
  nodup x := (hg x).nodup_iff.mpr (h.nodup x)

theorem Placed.append (h : Placed f spot) {n : N} (hn : spot n = none) (x : ι) :
    Placed (Function.update f x (f x ++ [n])) (Function.update spot n (some x)) := by
  refine (h.put hn x).perm fun y => ?_
  by_cases hy : y = x
  · rw [hy, Function.update_self, Function.update_self]
    exact List.perm_append_singleton n (f x)
  · rw [Function.update_of_ne hy, Function.update_of_ne hy]

/-- The same moves for lists that are given only up to their order. -/
theorem Placed.gone (h : Placed f spot) {x : ι} {n : N} {lx : List N}
    (hx : (n :: lx).Perm (f x)) :
    Placed (Function.update f x lx) (Function.update spot n none) := by
  have hn : n ∈ f x := hx.subset List.mem_cons_self
  refine (h.take hn).perm fun y => ?_
  by_cases hy : y = x
  · rw [hy, Function.update_self, Function.update_self]
    exact (List.cons_perm_iff_perm_erase.mp hx).2
  · rw [Function.update_of_ne hy, Function.update_of_ne hy]

theorem Placed.fresh (h : Placed f spot) {x : ι} {n : N} (hn : spot n = none) {lx : List N}
    (hx : lx.Perm (n :: f x)) :
    Placed (Function.update f x lx) (Function.update spot n (some x)) := by
  refine (h.put hn x).perm fun y => ?_
  by_cases hy : y = x
  · rw [hy, Function.update_self, Function.update_self]
    exact hx
  · rw [Function.update_of_ne hy, Function.update_of_ne hy]

theorem Placed.shift (h : Placed f spot) {x y : ι} (hxy : y ≠ x) {n : N} {lx ly : List N}
    (hx : (n :: lx).Perm (f x)) (hy : ly.Perm (n :: f y)) :
    Placed (Function.update (Function.update f x lx) y ly)
      (Function.update spot n (some y)) := by
  have hy' : ly.Perm (n :: Function.update f x lx y) := by rwa [Function.update_of_ne hxy]
  have hmoved := (h.gone hx).fresh (Function.update_self n none spot) hy'
  rwa [Function.update_idem] at hmoved

/-- The head of a list moves to the head of another. -/
theorem Placed.moveHead (h : Placed f spot) {x y : ι} {n : N} {rest : List N}
    (hf : f x = n :: rest) (hxy : y ≠ x) :
    Placed (Function.update (Function.update f x rest) y (n :: f y))
      (Function.update spot n (some y)) := by
  have hmoved := h.move (x := x) (n := n) (by rw [hf]; exact List.mem_cons_self) hxy
  rwa [hf, List.erase_cons_head] at hmoved

/-- All of a list moves before another. -/
theorem Placed.moveAll (h : Placed f spot) {x y : ι} (hxy : x ≠ y) :
    Placed (Function.update (Function.update f x []) y (f x ++ f y))
      (fun n => if n ∈ f x then some y else spot n) where
  located := h.located.move x y
  nodup := by
    intro z
    by_cases hz : z = y
    · rw [hz, Function.update_self]
      refine List.nodup_append.mpr ⟨h.nodup x, h.nodup y, fun a ha b hb hab => ?_⟩
      -- A node is in one of the two only.
      subst hab
      have hsame := (h.mem.mp ha).symm.trans (h.mem.mp hb)
      exact hxy (Option.some.inj hsame)
    · rw [Function.update_of_ne hz]
      by_cases hzx : z = x
      · rw [hzx, Function.update_self]
        exact List.nodup_nil
      · rw [Function.update_of_ne hzx]
        exact h.nodup z

end

end Cmpth

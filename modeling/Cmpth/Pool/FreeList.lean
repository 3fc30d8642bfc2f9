import Mathlib.Logic.Function.Basic
import Mathlib.Tactic.Common

/-!
# The Free Lists of a Pool

The lists that `ReturnPool` and `BlockPool` keep their free nodes on, and the
two operations on them. Each worker has a local list, which only it touches,
and a remote one, to which others return its nodes; a worker collects what it
has to return to another in a staging list, and flushes a full one.

A chain of `next` pointers is a list here. `pro.num` is the length of the
staging list, and `pro.last` its end, so that linking a batch before the remote
chain is an append.

## Main definitions

* `Lists`: All lists of a pool.
* `nodeTake`: `node_take`.
* `nodeGive`: `node_give`.
* `Lists.Holds`: The node is on one of the lists.

## Theorems

* `not_holds_empty`: An empty pool has no node.
* `mem_update`: What an update puts in a list is what the list holds afterwards.
* `holds_of_nodeTake`: What is taken was on a list.
* `holds_nodeTake`: What is left was there before.
* `holds_nodeGive_self`: Giving adds the node.
* `holds_nodeGive`: It adds nothing else.
-/

namespace Cmpth

namespace Pool

/-- The lists of a pool, by worker. `staged cur home` is
    `pro_arrays[cur][home]`. -/
structure Lists (N : Type*) where
  conLocal : Nat → List N
  conRemote : Nat → List N
  staged : Nat → Nat → List N

variable {N : Type*}

/-- Nothing has been given back yet. -/
def Lists.empty : Lists N where
  conLocal := fun _ => []
  conRemote := fun _ => []
  staged := fun _ _ => []

/-- `node_take`: from the local list, or from the remote one, whose rest
    becomes the local list. -/
def nodeTake (l : Lists N) (wk : Nat) : Option N × Lists N :=
  match l.conLocal wk with
  | node :: rest => (some node, { l with conLocal := Function.update l.conLocal wk rest })
  | [] =>
      let drained := { l with conRemote := Function.update l.conRemote wk [] }
      match l.conRemote wk with
      | head :: rest =>
          (some head, { drained with conLocal := Function.update l.conLocal wk rest })
      | [] => (none, drained)

/-- `node_give` by worker `cur`, for a node of worker `home`. -/
def nodeGive (threshold : Nat) (l : Lists N) (home cur : Nat) (node : N) : Lists N :=
  if home = cur then
    { l with conLocal := Function.update l.conLocal cur (node :: l.conLocal cur) }
  else
    let stage (batch : List N) :=
      Function.update l.staged cur (Function.update (l.staged cur) home batch)
    if (l.staged cur home).length < threshold then
      { l with staged := stage (node :: l.staged cur home) }
    else
      { l with
        conRemote := Function.update l.conRemote home (l.staged cur home ++ l.conRemote home)
        staged := stage [node] }

/-- The node is on one of the lists. -/
def Lists.Holds (l : Lists N) (n : N) : Prop :=
  (∃ wk, n ∈ l.conLocal wk) ∨ (∃ wk, n ∈ l.conRemote wk) ∨ ∃ cur home, n ∈ l.staged cur home

theorem not_holds_empty (n : N) : ¬ (Lists.empty : Lists N).Holds n := by
  rintro (⟨wk, h⟩ | ⟨wk, h⟩ | ⟨cur, home, h⟩) <;> cases h

/-- What an update puts in a list is what the list holds afterwards. -/
theorem mem_update {f : Nat → List N} {i j : Nat} {l : List N} {n : N}
    (h : n ∈ Function.update f i l j) : n ∈ l ∨ n ∈ f j := by
  by_cases hij : j = i
  · rw [hij, Function.update_self] at h
    exact .inl h
  · rw [Function.update_of_ne hij] at h
    exact .inr h

theorem holds_of_nodeTake {l l' : Lists N} {wk : Nat} {n : N}
    (h : nodeTake l wk = (some n, l')) : l.Holds n := by
  unfold nodeTake at h
  split at h
  · next node rest hl =>
      cases h
      exact .inl ⟨wk, by rw [hl]; exact List.mem_cons_self⟩
  · split at h
    · next head rest hr =>
        cases h
        exact .inr (.inl ⟨wk, by rw [hr]; exact List.mem_cons_self⟩)
    · cases h

theorem holds_nodeTake {l l' : Lists N} {wk : Nat} {r : Option N} {n : N}
    (h : nodeTake l wk = (r, l')) (hn : l'.Holds n) : l.Holds n := by
  unfold nodeTake at h
  -- From the local list, or from the remote one when that is empty.
  split at h
  · next node rest hl =>
      cases h
      rcases hn with ⟨w, hw⟩ | hw
      · rcases mem_update hw with hw | hw
        · exact .inl ⟨wk, by rw [hl]; exact List.mem_cons_of_mem _ hw⟩
        · exact .inl ⟨w, hw⟩
      · exact .inr hw
  · split at h
    · next head rest hr =>
        cases h
        rcases hn with ⟨w, hw⟩ | ⟨w, hw⟩ | hw
        · rcases mem_update hw with hw | hw
          · exact .inr (.inl ⟨wk, by rw [hr]; exact List.mem_cons_of_mem _ hw⟩)
          · exact .inl ⟨w, hw⟩
        · rcases mem_update hw with hw | hw
          · cases hw
          · exact .inr (.inl ⟨w, hw⟩)
        · exact .inr (.inr hw)
    · cases h
      rcases hn with hw | ⟨w, hw⟩ | hw
      · exact .inl hw
      · rcases mem_update hw with hw | hw
        · cases hw
        · exact .inr (.inl ⟨w, hw⟩)
      · exact .inr (.inr hw)

/-- The node that is given is on a list afterwards: the local one, or the staging list, which is
    flushed before a node is added. -/
theorem holds_nodeGive_self {threshold : Nat} {l : Lists N} {home cur : Nat} {node : N} :
    (nodeGive threshold l home cur node).Holds node := by
  unfold nodeGive
  split
  · refine .inl ⟨cur, ?_⟩
    simp only [Function.update_self, List.mem_cons_self]
  · split <;>
    · refine .inr (.inr ⟨cur, home, ?_⟩)
      simp only [Function.update_self, List.mem_cons_self]

theorem holds_nodeGive {threshold : Nat} {l : Lists N} {home cur : Nat} {node n : N}
    (h : (nodeGive threshold l home cur node).Holds n) : n = node ∨ l.Holds n := by
  unfold nodeGive at h
  split at h
  · -- hw | Its own worker's node goes to the local list.
    rcases h with ⟨w, hw⟩ | hw
    · rcases mem_update hw with hw | hw
      · rcases List.mem_cons.mp hw with hw | hw
        · exact .inl hw
        · exact .inr (.inl ⟨cur, hw⟩)
      · exact .inr (.inl ⟨w, hw⟩)
    · exact .inr (.inr hw)
  · -- Either way the staging list changes, and both lists hold old nodes only.
    have hstaged : ∀ batch : List N, (∀ m ∈ batch, m = node ∨ l.Holds m) →
        (∃ c h, n ∈ Function.update l.staged cur (Function.update (l.staged cur) home batch) c h) →
        n = node ∨ l.Holds n := by
      rintro batch hb ⟨c, k, hm⟩
      by_cases hc : c = cur
      · rw [hc, Function.update_self] at hm
        rcases mem_update hm with hm | hm
        · exact hb n hm
        · exact .inr (.inr (.inr ⟨cur, k, hm⟩))
      · rw [Function.update_of_ne hc] at hm
        exact .inr (.inr (.inr ⟨c, k, hm⟩))
    split at h
    · rcases h with hw | hw | hw
      · exact .inr (.inl hw)
      · exact .inr (.inr (.inl hw))
      · refine hstaged _ (fun m hm => ?_) hw
        rcases List.mem_cons.mp hm with hm | hm
        · exact .inl hm
        · exact .inr (.inr (.inr ⟨cur, home, hm⟩))
    · rcases h with hw | ⟨w, hw⟩ | hw
      · exact .inr (.inl hw)
      · rcases mem_update hw with hw | hw
        · rcases List.mem_append.mp hw with hw | hw
          · exact .inr (.inr (.inr ⟨cur, home, hw⟩))
          · exact .inr (.inr (.inl ⟨home, hw⟩))
        · exact .inr (.inr (.inl ⟨w, hw⟩))
      · refine hstaged _ (fun m hm => ?_) hw
        rcases List.mem_singleton.mp hm with rfl
        exact .inl rfl

end Pool

end Cmpth

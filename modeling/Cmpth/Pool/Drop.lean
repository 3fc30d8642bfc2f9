import Cmpth.Pool.Conserve

/-!
# What a `ReturnPool` Holds

Every pooled node is with a caller or in exactly one list, in every reachable
state, and a pool that is dropped frees those in its lists, each of them once.

Between the two steps of an operation the lists are not all where the pointers
say. A drained chain is in the hand of its worker, and a batch that has been
flushed is still recorded as the staging list it was.

## Main definitions

* `Conserved`: The places of the nodes.
* `Exact`: They are where the pointers say.

## Theorems

* `Inv.acyclic`, `Inv.conserved`: What the invariant says of places.
* `freeChains_eq`: Chains that have no node in common are freed one after the other.
* `mem_spots`, `nodup_spots`, `places_empty_or_mem`: The lists that `drop_all_nodes` walks are all
  there are.
* `drop_frees`: A pool that is dropped frees the nodes in its lists, each of them once.
* `conserves_nodes`: No node is lost or duplicated.
* `flush_shows`: The pointers alone do not say so.
* `conserves_nodes_flushed`: The drop after the flush frees both nodes.
-/

namespace Cmpth

namespace Pool

namespace ReturnPool

variable {N : Type*}

/-- Every pooled node is in one place, every list is a chain, and each holds
    what it should. An operation that has left its lock-held section has taken
    effect on the lists. -/
structure Conserved (threshold : Nat) (s : State N) (l : Lists N) : Prop where
  once : ∀ n wk, info s.heap n = some (wk, false) →
    (s.out n = true ∧ ∀ x, n ∉ s.places l x) ∨ (s.out n = false ∧ ∃! x, n ∈ s.places l x)
  conLocal : ∀ wk, Chain (links s.heap) (s.entry wk) (s.taken wk ++ l.conLocal wk)
  conRemote : ∀ wk, Chain (links s.heap) (s.conRemote wk) (l.conRemote wk)
  staged : ∀ cur home, s.Stages cur home (l.staged cur home)
  acyclic : ∀ x, (s.places l x).Nodup
  home : ∀ x n, n ∈ s.places l x → info s.heap n = some (x.home, false)
  foreign : ∀ wk, l.staged wk wk = []
  full : ∀ cur home, (l.staged cur home).length ≤ threshold
  /-- Where no operation is in flight the pointers say all this. -/
  idle : ∀ wk, s.pc wk = .idle → s.taken wk = [] ∧
    Chain (links s.heap) (s.conLocal wk) (l.conLocal wk) ∧
    ∀ home, (s.pro wk home).Records s.heap (l.staged wk home)

section

variable {numWorkers threshold : Nat} {s : State N} {l : Lists N} {spot : N → Option Spot}

theorem Inv.acyclic (h : Inv numWorkers threshold s l spot) (x : Spot) :
    (s.places l x).Nodup := by
  cases x with
  | conLocal wk => exact (List.nodup_append.mp (h.local_ wk).nodup).2.1
  | conRemote wk => exact (h.remote wk).nodup
  | staged cur home =>
      change (l.staged cur home).Nodup
      rcases h.staged cur home with ⟨node, _, hb⟩ | ⟨_, hchain, _⟩
      · rw [hb]
        exact List.nodup_singleton node
      · exact hchain.nodup
  | taken wk => exact (List.nodup_append.mp (h.local_ wk).nodup).1

theorem Inv.conserved (h : Inv numWorkers threshold s l spot) : Conserved threshold s l where
  once n wk hi := by
    by_cases hn : spot n = none
    · refine .inl ⟨(h.out_iff n wk hi).mpr hn, fun x => h.located.not_mem ?_⟩
      rw [hn]
      nofun
    · refine .inr ⟨?_, h.located.once hn⟩
      rwa [← h.out_iff n wk hi, Bool.not_eq_true] at hn
  conLocal := h.local_
  conRemote := h.remote
  staged := h.staged
  acyclic := h.acyclic
  home x n hn := h.pooled n x ((h.located x n).mp hn)
  foreign := h.foreign
  full := h.full
  idle wk hpc := ⟨Inv.taken_idle hpc, h.idle_local hpc, h.records hpc⟩

end

section

variable [DecidableEq N]

/-- Chains that have no node in common are freed one after the other. -/
theorem freeChains_eq {ι : Type*} {f : ι → List N} {first : ι → Option N} {xs : List ι}
    {fuel : Nat} {heap : N → Option (Node N)}
    (h : ∀ x ∈ xs, Chain (links heap) (first x) (f x))
    (hdis : xs.Pairwise fun x y => List.Disjoint (f x) (f y))
    (hf : (xs.flatMap f).length ≤ fuel) :
    freeChains fuel heap (xs.map first) =
      some (xs.flatMap f, cleared heap (xs.flatMap f)) := by
  -- By induction on the chains: the first is freed, and the others are as they were.
  induction xs generalizing heap with
  | nil =>
      rw [List.flatMap_nil, cleared_nil]
      rfl
  | cons x xs ih =>
      rw [List.flatMap_cons, List.length_append] at hf
      rcases List.pairwise_cons.mp hdis with ⟨hx, hxs⟩
      have hfirst : freeChain fuel heap (first x) = some (f x, cleared heap (f x)) :=
        freeFrom_eq (h x List.mem_cons_self) (by omega)
      have hrest : ∀ y ∈ xs, Chain (links (cleared heap (f x))) (first y) (f y) := by
        intro y hy
        refine (h y (List.mem_cons_of_mem _ hy)).congr fun n hn => linksOf_cleared fun hm => ?_
        exact hx y hy hm hn
      simp only [List.map_cons, freeChains, hfirst, Option.bind_some, ih hrest hxs (by omega),
        Option.map_some, cleared_cleared, List.flatMap_cons]

theorem mem_spots {numWorkers : Nat} {x : Spot} :
    x ∈ spots numWorkers ↔ ∃ wk < numWorkers, x = .conLocal wk ∨ x = .conRemote wk ∨
      ∃ home < numWorkers, x = .staged wk home := by
  simp only [spots, List.mem_flatMap, List.mem_range, List.mem_cons, List.mem_map, eq_comm]

/-- The worker that keeps a list. -/
def Spot.keeper : Spot → Nat
  | .conLocal wk | .conRemote wk | .staged wk _ | .taken wk => wk

theorem nodup_spots (numWorkers : Nat) : (spots numWorkers).Nodup := by
  have hkeeper : ∀ wk x, x ∈ Spot.conLocal wk :: .conRemote wk ::
      (List.range numWorkers).map (.staged wk) → x.keeper = wk := by
    intro wk x hx
    rcases List.mem_cons.mp hx with rfl | hx
    · rfl
    rcases List.mem_cons.mp hx with rfl | hx
    · rfl
    rcases List.mem_map.mp hx with ⟨home, _, rfl⟩
    rfl
  refine List.nodup_flatMap.mpr ⟨fun wk _ => ?_, ?_⟩
  · refine List.nodup_cons.mpr ⟨?_, List.nodup_cons.mpr ⟨?_, ?_⟩⟩
    · simp
    · simp
    · exact List.nodup_range.map fun a b hab => by cases hab; rfl
  · refine List.nodup_range.imp fun {a b} hab x ha hb => hab ?_
    rw [← hkeeper a x ha, hkeeper b x hb]

section

variable {numWorkers threshold stackSize : Nat} {s : State N} {l : Lists N}
  {spot : N → Option Spot}

omit [DecidableEq N] in
theorem places_empty_or_mem (h : Inv numWorkers threshold s l spot)
    (hidle : ∀ wk, s.pc wk = .idle) {x : Spot} {n : N} (hn : n ∈ s.places l x) :
    x ∈ spots numWorkers := by
  have hhome := h.homes n x.home false (h.pooled n x ((h.located x n).mp hn))
  refine mem_spots.mpr ?_
  cases x with
  | conLocal wk => exact ⟨wk, hhome, .inl rfl⟩
  | conRemote wk => exact ⟨wk, hhome, .inr (.inl rfl)⟩
  | staged cur home =>
      have hne : l.staged cur home ≠ [] := List.ne_nil_of_mem hn
      exact ⟨cur, h.keepers cur home hne, .inr (.inr ⟨home, hhome, rfl⟩)⟩
  | taken wk =>
      rw [show s.places l (.taken wk) = [] from Inv.taken_idle (hidle wk)] at hn
      cases hn

/-- A pool that is dropped frees the nodes in its lists, each of them once. -/
theorem drop_frees (h : Inv numWorkers threshold s l spot) (hidle : ∀ wk, s.pc wk = .idle) :
    ∃ freed, (∀ fuel, freed.length ≤ fuel →
        dropAllNodes numWorkers fuel s = some (freed, cleared s.heap freed)) ∧
      freed.Nodup ∧
      ∀ n, n ∈ freed ↔ s.out n = false ∧ ∃ wk, info s.heap n = some (wk, false) := by
  -- With all workers idle, each pointer begins the chain of its list.
  have hchain : ∀ x ∈ spots numWorkers, Chain (links s.heap) (s.first x) (s.places l x) := by
    intro x hx
    cases x with
    | conLocal wk => exact h.idle_local (hidle wk)
    | conRemote wk => exact h.remote wk
    | staged cur home => exact (h.records (hidle cur) home).1
    | taken wk => simp [mem_spots] at hx
  have hdis : (spots numWorkers).Pairwise fun x y =>
      List.Disjoint (s.places l x) (s.places l y) := by
    refine (nodup_spots numWorkers).imp fun {x y} hxy n hx hy => hxy ?_
    exact Option.some.inj (((h.located x n).mp hx).symm.trans ((h.located y n).mp hy))
  refine ⟨(spots numWorkers).flatMap (s.places l), fun fuel hf => freeChains_eq hchain hdis hf,
    List.nodup_flatMap.mpr ⟨fun x _ => h.acyclic x, hdis⟩, fun n => ?_⟩
  -- A node that is freed was on one of the lists, and the others are out.
  rw [List.mem_flatMap]
  constructor
  · rintro ⟨x, _, hn⟩
    have hspot := (h.located x n).mp hn
    have hi := h.pooled n x hspot
    refine ⟨?_, x.home, hi⟩
    rw [← Bool.not_eq_true, h.out_iff n x.home hi, hspot]
    nofun
  · rintro ⟨hout, wk, hi⟩
    have hspot : spot n ≠ none := by
      rw [ne_eq, ← h.out_iff n wk hi, hout]
      nofun
    rcases Option.ne_none_iff_exists'.mp hspot with ⟨x, hx⟩
    have hn := (h.located x n).mpr hx
    exact ⟨x, places_empty_or_mem h hidle hn, hn⟩

end

/-- `ReturnPool` conserves nodes. In every reachable state each pooled node is
    with a caller or in exactly one place, and the lists are chains that hold
    what they should. A drop, where no operation is in flight, frees the pooled
    nodes that no caller holds, each of them once. -/
theorem conserves_nodes (numWorkers threshold stackSize : Nat) (h1 : 1 ≤ threshold) (s : State N)
    (hr : (system numWorkers threshold stackSize).Reachable s) :
    (∃ l : Lists N, Conserved threshold s l) ∧
    ((∀ wk, s.pc wk = .idle) → ∃ freed, (∀ fuel, freed.length ≤ fuel →
        dropAllNodes numWorkers fuel s = some (freed, cleared s.heap freed)) ∧
      freed.Nodup ∧
      ∀ n, n ∈ freed ↔ s.out n = false ∧ ∃ wk, info s.heap n = some (wk, false)) := by
  rcases inv_reachable h1 hr with ⟨l, spot, h⟩
  exact ⟨⟨l, h.conserved⟩, drop_frees h⟩

end

/-- The lists by place, without the hands of the workers. -/
def listed {N : Type*} (l : Lists N) : Spot → List N
  | .conLocal wk => l.conLocal wk
  | .conRemote wk => l.conRemote wk
  | .staged cur home => l.staged cur home
  | .taken _ => []

/-- Every pooled node is in exactly one place, going by the pointers alone. -/
def Exact {N : Type*} (s : State N) : Prop :=
  ∃ l : Lists N, (∀ wk, Chain (links s.heap) (s.conLocal wk) (l.conLocal wk)) ∧
    (∀ wk, Chain (links s.heap) (s.conRemote wk) (l.conRemote wk)) ∧
    (∀ cur home, (s.pro cur home).Records s.heap (l.staged cur home)) ∧
    ∀ n wk, info s.heap n = some (wk, false) →
      (s.out n = true ∧ ∀ x, n ∉ listed l x) ∨ (s.out n = false ∧ ∃! x, n ∈ listed l x)

/-- A pool of which nothing has been asked. -/
def new : State Nat where
  heap _ := none
  conLocal _ := none
  conRemote _ := none
  pro _ _ := .empty
  out _ := false
  pc _ := .idle

/-- A worker allocates two nodes, and another gives them back. The second one
    makes it flush the first. -/
def flushRun : List (Action Nat) :=
  [.alloc 0 0 0, .settle 0 0, .alloc 0 0 1, .settle 0 1, .dealloc 1 0, .dealloc 1 1]

theorem flushRun_legal : (system 2 1 0).Legal new flushRun :=
  ⟨⟨by decide, rfl, rfl⟩, ⟨⟨none, rfl⟩, rfl⟩, ⟨by decide, rfl, rfl⟩, ⟨⟨none, rfl⟩, rfl⟩,
    ⟨by decide, rfl, rfl⟩, ⟨by decide, rfl, rfl⟩, trivial⟩

theorem new_init : (system 2 1 0).init new :=
  ⟨fun _ => rfl, fun _ => rfl, fun _ => rfl, fun _ _ => rfl, fun _ => rfl, fun _ => rfl⟩

/-- Between the steps of a flush the batch is in two lists. -/
theorem flush_shows :
    (system 2 1 0).Reachable ((system 2 1 0).run new flushRun) ∧
      ¬ Exact ((system 2 1 0).run new flushRun) := by
  refine ⟨System.reachable_run _ _ _ new_init flushRun_legal, ?_⟩
  rintro ⟨l, _, hremote, hstaged, honce⟩
  have hr : (0 : Nat) ∈ listed l (.conRemote 0) := by
    rw [listed, Chain.unique (hremote 0) (m := [0]) ⟨rfl, none, rfl, rfl⟩]
    exact List.mem_cons_self
  have hs : (0 : Nat) ∈ listed l (.staged 1 0) := by
    rw [listed, Chain.unique (hstaged 1 0).1 (m := [0]) ⟨rfl, none, rfl, rfl⟩]
    exact List.mem_cons_self
  rcases honce 0 0 rfl with ⟨_, hno⟩ | ⟨_, x, _, hx⟩
  · exact hno _ hr
  · exact nomatch (hx _ hr).trans (hx _ hs).symm

/-- The drop after the flush frees both nodes. -/
theorem conserves_nodes_flushed :
    ∃ freed, (∀ fuel, freed.length ≤ fuel → dropAllNodes 2 fuel
        ((system 2 1 0).run new (flushRun ++ [.restart 1])) = some (freed, cleared
          ((system 2 1 0).run new (flushRun ++ [.restart 1])).heap freed)) ∧
      freed.Nodup ∧ ∀ n, n ∈ freed ↔
        ((system 2 1 0).run new (flushRun ++ [.restart 1])).out n = false ∧
          ∃ wk, info ((system 2 1 0).run new (flushRun ++ [.restart 1])).heap n =
            some (wk, false) := by
  refine (conserves_nodes 2 1 0 (Nat.le_refl 1) _ ?_).2 fun wk => ?_
  · exact System.reachable_run _ _ _ new_init ⟨⟨by decide, rfl, rfl⟩, ⟨⟨none, rfl⟩, rfl⟩,
      ⟨by decide, rfl, rfl⟩, ⟨⟨none, rfl⟩, rfl⟩, ⟨by decide, rfl, rfl⟩, ⟨by decide, rfl, rfl⟩,
      ⟨0, 1, rfl⟩, trivial⟩
  · rcases wk with _ | _ | wk <;> rfl

end ReturnPool

end Pool

end Cmpth

import Cmpth.Core.Places
import Cmpth.Pool.Return

/-!
# The Lists of a `ReturnPool`

The pointers of a pool make up lists, and each operation does to them what
`nodeTake` and `nodeGive` do, with its first step. The chains are untouched by
a link that changes elsewhere, and what is elsewhere is known from the place
every node is at: a list can change only where its nodes are.

## Main definitions

* `Inv`: The lists in memory, and the place of every node.
* `listsNext`: What an action does to the lists.

## Theorems

* `links_setNext`, `heap_of_info`, `info_update`, `nextOf_eq`: What a store to a node does to links
  and to the rest.
* `info_setNext`: A link is not what a node is about.
* `not_mem_local`, `relink_remote`: A store to a node that is elsewhere leaves a list.
* `relink_local`: The links may change at a node elsewhere.
* `relink_staged`: The same of a staging list, in a state that agrees on it.
* `spot_of_out`, `spot_of_fresh`: What is out, or not allocated, has no place.
* `idle_local`, `taken_idle`: The lists of a worker that is in no operation.
* `inv_wrapFresh`, `inv_free`: A node is allocated, and freed.
* `out_pop`: A node leaves the lists for a caller.
* `inv_pop`: `alloc` from the local list.
* `flushed_update`: A worker that is idle or takes nodes flushes nothing.
* `Inv.workers_update`: Only workers run operations.
* `Inv.same_staged`: The staging lists of a state that agrees on them.
* `inv_drain`: `alloc` drains the remote list.
* `drained_of_idle`: Where an operation ends nothing is drained.
* `inv_settle_some`: `alloc` takes the head of a drained chain.
* `inv_idle`: `alloc` found nothing.
* `out_push`: A node comes from a caller to a place.
* `inv_giveHome`: `dealloc` by the worker that has allocated the node.
* `setPro_self`, `setPro_of_ne`, `stage_self`, `stage_of_ne`: The record of one staging list
  changes.
* `Inv.bounds`: A staging list that changes belongs to a worker and to the home of others' nodes,
  and is not too long.
* `Inv.records`: A worker that is idle has recorded its staging lists.
* `inv_stage`: `dealloc` of another worker's node, to a staging list that is not full.
* `inv_flush`: `dealloc` of another worker's node, when the staging list is full.
* `inv_restart`: `dealloc` restarts a staging list.
* `inv_alloc`, `inv_settle`, `inv_dealloc`: The operations of the pool.
* `inv_next`: Every action keeps the invariant, for what it does to the lists.
* `inv_init`: The invariant holds at the beginning.
* `inv_reachable`: Every reachable pool has its lists.
-/

namespace Cmpth

namespace Pool

namespace ReturnPool

variable {N : Type*} [DecidableEq N]

section

variable {heap : N → Option (Node N)}

theorem links_setNext {n : N} {p : Option N} (h : heap n ≠ none) :
    links (setNext heap n p) = Function.update (links heap) n (some p) := by
  funext m
  by_cases hm : m = n
  · subst hm
    rcases Option.ne_none_iff_exists'.mp h with ⟨nd, hnd⟩
    simp only [linksOf, setNext, Function.update_self, hnd, Option.map_some]
  · simp only [linksOf, setNext, Function.update_of_ne hm]

/-- A link is not what a node is about. -/
theorem info_setNext (n : N) (p : Option N) : info (setNext heap n p) = info heap := by
  funext m
  by_cases hm : m = n
  · subst hm
    simp only [info, setNext, Function.update_self, Option.map_map]
    rfl
  · simp only [info, setNext, Function.update_of_ne hm]

omit [DecidableEq N] in
theorem heap_of_info {n : N} {x : Nat × Bool} (h : info heap n = some x) : heap n ≠ none := by
  intro hn
  rw [info, hn] at h
  cases h

theorem info_update (n : N) (x : Option (Node N)) :
    info (Function.update heap n x) =
      Function.update (info heap) n (x.map fun node => (node.allocWk, node.oversized)) := by
  funext m
  by_cases hm : m = n
  · subst hm
    simp only [info, Function.update_self]
  · simp only [info, Function.update_of_ne hm]

end

/-- The lists in memory are those of `l`, and `spot` tells which of the places
    a node is at, if any. -/
structure Inv (numWorkers threshold : Nat) (s : State N) (l : Lists N)
    (spot : N → Option Spot) : Prop where
  local_ : ∀ wk, Chain (links s.heap) (s.entry wk) (s.taken wk ++ l.conLocal wk)
  remote : ∀ wk, Chain (links s.heap) (s.conRemote wk) (l.conRemote wk)
  staged : ∀ cur home, s.Stages cur home (l.staged cur home)
  located : Located (s.places l) spot
  pooled : ∀ n x, spot n = some x → info s.heap n = some (x.home, false)
  out_iff : ∀ n wk, info s.heap n = some (wk, false) → (s.out n = true ↔ spot n = none)
  known : ∀ n, s.out n = true → info s.heap n ≠ none
  homes : ∀ n wk b, info s.heap n = some (wk, b) → wk < numWorkers
  foreign : ∀ wk, l.staged wk wk = []
  keepers : ∀ cur home, l.staged cur home ≠ [] → cur < numWorkers
  emptied : ∀ wk head, s.pc wk = .drained head → s.conLocal wk = none
  workers : ∀ wk, s.pc wk ≠ .idle → wk < numWorkers
  full : ∀ cur home, (l.staged cur home).length ≤ threshold

/-- What an action does to the lists: an `alloc` or a `dealloc` takes effect
    with its first step. -/
def listsNext (threshold stackSize : Nat) (s : State N) (l : Lists N) : Action N → Lists N
  | .alloc wk size _ => if size > stackSize then l else (nodeTake l wk).2
  | .dealloc cur node =>
      match s.heap node with
      | none => l
      | some nd => if nd.oversized then l else Pool.nodeGive threshold l nd.allocWk cur node
  | .settle .. | .restart _ | .freeDesc _ => l

section

variable {numWorkers threshold stackSize : Nat} {s : State N} {l : Lists N}
  {spot : N → Option Spot}

namespace Inv

omit [DecidableEq N] in
theorem not_mem_local (h : Inv numWorkers threshold s l spot) {wk : Nat} {n : N}
    (hl : spot n ≠ some (.conLocal wk)) (ht : spot n ≠ some (.taken wk)) :
    n ∉ s.taken wk ++ l.conLocal wk := by
  intro hm
  rcases List.mem_append.mp hm with hm | hm
  · exact h.located.not_mem ht hm
  · exact h.located.not_mem hl hm

/-- The links may change at a node elsewhere. -/
theorem relink_local (h : Inv numWorkers threshold s l spot) {a : N} {v : Option (Option N)}
    (wk : Nat) (hl : spot a ≠ some (.conLocal wk)) (ht : spot a ≠ some (.taken wk)) :
    Chain (Function.update (links s.heap) a v) (s.entry wk) (s.taken wk ++ l.conLocal wk) :=
  (h.local_ wk).update (h.not_mem_local hl ht)

theorem relink_remote (h : Inv numWorkers threshold s l spot) {a : N} {v : Option (Option N)}
    {wk : Nat} (ha : spot a ≠ some (.conRemote wk)) :
    Chain (Function.update (links s.heap) a v) (s.conRemote wk) (l.conRemote wk) :=
  (h.remote wk).update (h.located.not_mem (x := .conRemote wk) ha)

/-- The same of a staging list, in a state that agrees on it. -/
theorem relink_staged (h : Inv numWorkers threshold s l spot) {s' : State N} {a : N}
    {v : Option (Option N)} {cur home : Nat} (ha : spot a ≠ some (.staged cur home))
    (hl : links s'.heap = Function.update (links s.heap) a v)
    (hpc : ∀ node, s'.pc cur = .flushed home node ↔ s.pc cur = .flushed home node)
    (hpro : s'.pro cur home = s.pro cur home) : s'.Stages cur home (l.staged cur home) := by
  rcases h.staged cur home with ⟨node, hp, hb⟩ | ⟨hp, hc, hlast, hnum⟩
  · exact .inl ⟨node, (hpc node).mpr hp, hb⟩
  · refine .inr ⟨fun node hn => hp node ((hpc node).mp hn), ?_⟩
    rw [hpro]
    refine ⟨?_, hlast, hnum⟩
    rw [hl]
    exact hc.update (h.located.not_mem (x := .staged cur home) ha)

omit [DecidableEq N] in
theorem spot_of_out (h : Inv numWorkers threshold s l spot) {n : N} (hn : s.out n = true) :
    spot n = none := by
  cases hx : spot n with
  | none => rfl
  | some x => rw [← hx, ← h.out_iff n x.home (h.pooled n x hx), hn]

omit [DecidableEq N] in
theorem spot_of_fresh (h : Inv numWorkers threshold s l spot) {n : N} (hn : s.heap n = none) :
    spot n = none := by
  by_contra hx
  rcases Option.ne_none_iff_exists'.mp hx with ⟨x, hx⟩
  have hi := h.pooled n x hx
  rw [info, hn] at hi
  cases hi

omit [DecidableEq N] in
theorem idle_local (h : Inv numWorkers threshold s l spot) {wk : Nat} (hpc : s.pc wk = .idle) :
    Chain (links s.heap) (s.conLocal wk) (l.conLocal wk) := by
  have hc := h.local_ wk
  unfold State.entry State.taken at hc
  rw [hpc] at hc
  exact hc

omit [DecidableEq N] in
theorem taken_idle {wk : Nat} (hpc : s.pc wk = .idle) : s.taken wk = [] := by
  unfold State.taken
  rw [hpc]

end Inv

theorem inv_wrapFresh (h : Inv numWorkers threshold s l spot) {wk : Nat} {b : Bool} {fresh : N}
    (hf : s.heap fresh = none) (hw : wk < numWorkers) :
    Inv numWorkers threshold (s.wrapFresh wk b fresh) l spot := by
  have hspot := h.spot_of_fresh hf
  have hlinks : links (s.wrapFresh wk b fresh).heap =
      Function.update (links s.heap) fresh (some none) := linksOf_update ..
  have hinfo : info (s.wrapFresh wk b fresh).heap =
      Function.update (info s.heap) fresh (some (wk, b)) := info_update ..
  -- The new node was nowhere, so no chain goes through it.
  refine
    { local_ := fun w => ?_
      remote := fun w => ?_
      staged := fun c k => ?_
      located := h.located
      pooled := fun n x hx => ?_
      out_iff := fun n w hi => ?_
      known := fun n hn => ?_
      homes := fun n w b' hi => ?_
      foreign := h.foreign
      keepers := h.keepers
      emptied := h.emptied
      workers := h.workers
      full := h.full }
  · rw [hlinks]
    exact h.relink_local _ (by rw [hspot]; nofun) (by rw [hspot]; nofun)
  · rw [hlinks]
    exact h.relink_remote (by rw [hspot]; nofun)
  · exact h.relink_staged (by rw [hspot]; nofun) hlinks (fun _ => Iff.rfl) rfl
  · have hne : n ≠ fresh := by
      rintro rfl
      rw [hspot] at hx
      cases hx
    rw [hinfo, Function.update_of_ne hne]
    exact h.pooled n x hx
  · by_cases hn : n = fresh
    · subst hn
      exact ⟨fun _ => hspot, fun _ => Function.update_self ..⟩
    · rw [hinfo, Function.update_of_ne hn] at hi
      rw [show (s.wrapFresh wk b fresh).out n = s.out n from Function.update_of_ne hn ..]
      exact h.out_iff n w hi
  · by_cases hne : n = fresh
    · rw [hinfo, hne, Function.update_self]
      nofun
    · rw [hinfo, Function.update_of_ne hne]
      rw [show (s.wrapFresh wk b fresh).out n = s.out n from Function.update_of_ne hne ..] at hn
      exact h.known n hn
  · by_cases hne : n = fresh
    · rw [hinfo, hne, Function.update_self] at hi
      cases hi
      exact hw
    · rw [hinfo, Function.update_of_ne hne] at hi
      exact h.homes n w b' hi

theorem inv_free (h : Inv numWorkers threshold s l spot) {n : N} (hn : s.out n = true) :
    Inv numWorkers threshold (s.free n) l spot := by
  have hspot := h.spot_of_out hn
  have hlinks : links (s.free n).heap = Function.update (links s.heap) n none := linksOf_update ..
  have hinfo : info (s.free n).heap = Function.update (info s.heap) n none := info_update ..
  -- A node that is out is on no chain, so its link is nobody's.
  refine
    { local_ := fun w => ?_
      remote := fun w => ?_
      staged := fun c k => ?_
      located := h.located
      pooled := fun m x hx => ?_
      out_iff := fun m w hi => ?_
      known := fun m hm => ?_
      homes := fun m w b hi => ?_
      foreign := h.foreign
      keepers := h.keepers
      emptied := h.emptied
      workers := h.workers
      full := h.full }
  · rw [hlinks]
    exact h.relink_local _ (by rw [hspot]; nofun) (by rw [hspot]; nofun)
  · rw [hlinks]
    exact h.relink_remote (by rw [hspot]; nofun)
  · exact h.relink_staged (by rw [hspot]; nofun) hlinks (fun _ => Iff.rfl) rfl
  · have hne : m ≠ n := by
      rintro rfl
      rw [hspot] at hx
      cases hx
    rw [hinfo, Function.update_of_ne hne]
    exact h.pooled m x hx
  · have hne : m ≠ n := by
      rintro rfl
      rw [hinfo, Function.update_self] at hi
      cases hi
    rw [hinfo, Function.update_of_ne hne] at hi
    rw [show (s.free n).out m = s.out m from Function.update_of_ne hne ..]
    exact h.out_iff m w hi
  · have hne : m ≠ n := by
      rintro rfl
      rw [show (s.free m).out m = false from Function.update_self ..] at hm
      cases hm
    rw [show (s.free n).out m = s.out m from Function.update_of_ne hne ..] at hm
    rw [hinfo, Function.update_of_ne hne]
    exact h.known m hm
  · have hne : m ≠ n := by
      rintro rfl
      rw [hinfo, Function.update_self] at hi
      cases hi
    rw [hinfo, Function.update_of_ne hne] at hi
    exact h.homes m w b hi

/-- A node leaves the lists for a caller. -/
theorem out_pop (h : Inv numWorkers threshold s l spot) {n : N} {x : Spot}
    (hx : spot n = some x) :
    (∀ m y, Function.update spot n none m = some y → info s.heap m = some (y.home, false)) ∧
    (∀ m wk, info s.heap m = some (wk, false) →
      (Function.update s.out n true m = true ↔ Function.update spot n none m = none)) ∧
    ∀ m, Function.update s.out n true m = true → info s.heap m ≠ none := by
  refine ⟨fun m y hy => ?_, fun m wk hi => ?_, fun m hm => ?_⟩
  · have hne : m ≠ n := by
      rintro rfl
      rw [Function.update_self] at hy
      cases hy
    rw [Function.update_of_ne hne] at hy
    exact h.pooled m y hy
  · -- The node that goes is with a caller, and the others are where they were.
    by_cases hne : m = n
    · rw [hne, Function.update_self, Function.update_self]
      exact ⟨fun _ => rfl, fun _ => rfl⟩
    · rw [Function.update_of_ne hne, Function.update_of_ne hne]
      exact h.out_iff m wk hi
  · by_cases hne : m = n
    · rw [hne, h.pooled n x hx]
      nofun
    · rw [Function.update_of_ne hne] at hm
      exact h.known m hm

omit [DecidableEq N] in
theorem nextOf_eq {n : N} {q : Option N} (h : links s.heap n = some q) : s.nextOf n = q := by
  unfold links linksOf at h
  unfold State.nextOf
  cases hn : s.heap n with
  | none =>
      rw [hn] at h
      cases h
  | some nd =>
      rw [hn] at h
      exact Option.some.inj h

/-- `alloc` from the local list. -/
theorem inv_pop (h : Inv numWorkers threshold s l spot) {wk : Nat} {node : N}
    (hpc : s.pc wk = .idle) (hl : s.conLocal wk = some node) :
    ∃ spot', Inv numWorkers threshold
      { s with
        conLocal := Function.update s.conLocal wk (s.nextOf node)
        out := Function.update s.out node true }
      (nodeTake l wk).2 spot' := by
  have hc := h.idle_local hpc
  rw [hl] at hc
  have hnodup := hc.nodup
  -- The local list is a chain, whose head is the one that is taken.
  rcases hc.eq_cons with ⟨q, rest, heq, hq, hrest⟩
  rw [heq] at hnodup
  have htake : (nodeTake l wk).2 =
      { l with conLocal := Function.update l.conLocal wk rest } := by
    unfold nodeTake
    rw [heq]
  have hspot : spot node = some (.conLocal wk) :=
    (h.located (.conLocal wk) node).mp (by
      change node ∈ l.conLocal wk
      rw [heq]
      exact List.mem_cons_self)
  rcases out_pop h hspot with ⟨hpooled, hout, hknown⟩
  -- Only the head of the own local list leaves its place.
  refine ⟨Function.update spot node none, ?_⟩
  rw [htake]
  refine
    { local_ := fun w => ?_
      remote := h.remote
      staged := h.staged
      located := ?_
      pooled := hpooled
      out_iff := hout
      known := hknown
      homes := h.homes
      foreign := h.foreign
      keepers := h.keepers
      emptied := fun w head hw => ?_
      workers := h.workers
      full := h.full }
  · by_cases hw : w = wk
    · subst hw
      unfold State.entry State.taken
      simp only [hpc, Function.update_self, List.nil_append]
      rw [nextOf_eq hq]
      exact hrest
    · have hold := h.local_ w
      unfold State.entry State.taken at hold ⊢
      simp only [Function.update_of_ne hw]
      exact hold
  · have hplaces : State.places
        { s with
          conLocal := Function.update s.conLocal wk (s.nextOf node)
          out := Function.update s.out node true }
        { l with conLocal := Function.update l.conLocal wk rest } =
        Function.update (s.places l) (.conLocal wk) rest := by
      funext x
      cases x with
      | conLocal w =>
          by_cases hw : w = wk
          · subst hw
            simp only [State.places, Function.update_self]
          · simp only [State.places, Function.update_of_ne hw]
            rw [Function.update_of_ne (by simpa using hw)]
            rfl
      | conRemote | staged | taken => rfl
    rw [hplaces]
    exact h.located.pop heq (List.nodup_cons.mp hnodup).1
  · have hne : w ≠ wk := by
      rintro rfl
      rw [show s.pc w = _ from hw] at hpc
      cases hpc
    change Function.update s.conLocal wk _ w = none
    rw [Function.update_of_ne hne]
    exact h.emptied w head hw

omit [DecidableEq N] in
/-- A worker that is idle or takes nodes flushes nothing. -/
theorem flushed_update (wk : Nat) (pc : Pc N) (hold : ∀ home node, s.pc wk ≠ .flushed home node)
    (hnew : ∀ home node, pc ≠ .flushed home node) (cur home : Nat) (node : N) :
    Function.update s.pc wk pc cur = .flushed home node ↔ s.pc cur = .flushed home node := by
  by_cases hc : cur = wk
  · rw [hc, Function.update_self]
    exact iff_of_false (hnew home node) (hold home node)
  · rw [Function.update_of_ne hc]

omit [DecidableEq N] in
/-- Only workers run operations. -/
theorem Inv.workers_update (h : Inv numWorkers threshold s l spot) {wk : Nat} {pc : Pc N}
    (hw : pc ≠ .idle → wk < numWorkers) :
    ∀ w, Function.update s.pc wk pc w ≠ .idle → w < numWorkers := by
  intro w hne
  by_cases hx : w = wk
  · rw [hx, Function.update_self] at hne
    rw [hx]
    exact hw hne
  · rw [Function.update_of_ne hx] at hne
    exact h.workers w hne

omit [DecidableEq N] in
/-- The staging lists of a state that agrees on them. -/
theorem Inv.same_staged (h : Inv numWorkers threshold s l spot) {s' : State N}
    (hheap : s'.heap = s.heap) (hpro : s'.pro = s.pro)
    (hpc : ∀ cur home node, s'.pc cur = .flushed home node ↔ s.pc cur = .flushed home node)
    (cur home : Nat) : s'.Stages cur home (l.staged cur home) := by
  unfold State.Stages
  rw [hheap, hpro]
  rcases h.staged cur home with ⟨node, hp, hb⟩ | ⟨hp, hrecords⟩
  · exact .inl ⟨node, (hpc cur home node).mpr hp, hb⟩
  · exact .inr ⟨fun node hn => hp node ((hpc cur home node).mp hn), hrecords⟩

/-- `alloc` drains the remote list. -/
theorem inv_drain (h : Inv numWorkers threshold s l spot) {wk : Nat} (hw : wk < numWorkers)
    (hpc : s.pc wk = .idle) (hl : s.conLocal wk = none) :
    ∃ spot', Inv numWorkers threshold
      { s with
        conRemote := Function.update s.conRemote wk none
        pc := Function.update s.pc wk (.drained (s.conRemote wk)) }
      (nodeTake l wk).2 spot' := by
  have hlocal := h.idle_local hpc
  rw [hl] at hlocal
  have hnil : l.conLocal wk = [] := hlocal.eq_nil
  -- The local list is empty, and so is the remote one once it has been taken.
  have hflushed := flushed_update wk (.drained (s.conRemote wk)) (by rw [hpc]; nofun) nofun
  have hemptied : ∀ w head, Function.update s.pc wk (.drained (s.conRemote wk)) w = .drained head →
      s.conLocal w = none := by
    intro w head hw
    by_cases hne : w = wk
    · rw [hne, hl]
    · rw [Function.update_of_ne hne] at hw
      exact h.emptied w head hw
  -- The entries of the other workers stay.
  have hother : ∀ w, w ≠ wk → ∀ rest, Chain (links s.heap)
      (State.entry
        { s with
          conRemote := Function.update s.conRemote wk none
          pc := Function.update s.pc wk (.drained (s.conRemote wk)) } w)
      (State.taken
        { s with
          conRemote := Function.update s.conRemote wk none
          pc := Function.update s.pc wk (.drained (s.conRemote wk)) } w ++
        Function.update l.conLocal wk rest w) := by
    intro w hw rest
    have hold := h.local_ w
    unfold State.entry State.taken at hold ⊢
    simp only [Function.update_of_ne hw]
    exact hold
  have hremote := h.remote wk
  have hnodup := hremote.nodup
  -- There may be nothing at the remote list either.
  cases hr : s.conRemote wk with
  | none =>
      rw [hr] at hremote
      have hrnil : l.conRemote wk = [] := hremote.eq_nil
      have htake : (nodeTake l wk).2 = l := by
        unfold nodeTake
        rw [hnil, hrnil]
        change { l with conRemote := Function.update l.conRemote wk [] } = l
        rw [← hrnil, Function.update_eq_self]
      rw [hr] at hflushed hemptied hother
      refine ⟨spot, ?_⟩
      rw [htake]
      refine
        { local_ := fun w => ?_
          remote := fun w => ?_
          staged := h.same_staged rfl rfl hflushed
          located := ?_
          pooled := h.pooled
          out_iff := h.out_iff
          known := h.known
          homes := h.homes
          foreign := h.foreign
          keepers := h.keepers
          emptied := hemptied
          workers := h.workers_update fun _ => hw
          full := h.full }
      · by_cases hw : w = wk
        · subst hw
          unfold State.entry State.taken
          simp only [Function.update_self, hnil]
          rfl
        · have hchain := hother w hw (l.conLocal wk)
          rw [Function.update_eq_self] at hchain
          exact hchain
      · change Chain _ (Function.update s.conRemote wk none w) _
        rw [← hr, Function.update_eq_self]
        exact h.remote w
      · have hplaces : State.places
            { s with
              conRemote := Function.update s.conRemote wk none
              pc := Function.update s.pc wk (.drained none) } l = s.places l := by
          funext x
          cases x with
          | taken w =>
              by_cases hw : w = wk
              · subst hw
                simp only [State.places, State.taken, Function.update_self, hpc]
                rfl
              · simp only [State.places, State.taken, Function.update_of_ne hw]
          | conLocal | conRemote | staged => rfl
        rw [hplaces]
        exact h.located
  | some head =>
      rw [hr] at hremote
      rcases hremote.eq_cons with ⟨q, rest, heq, hq, hrest⟩
      rw [heq] at hnodup
      have htake : (nodeTake l wk).2 =
          { l with
            conLocal := Function.update l.conLocal wk rest
            conRemote := Function.update l.conRemote wk [] } := by
        unfold nodeTake
        rw [hnil, heq]
      rw [hr] at hflushed hemptied hother
      have hhead : spot head = some (.conRemote wk) :=
        (h.located (.conRemote wk) head).mp (by
          change head ∈ l.conRemote wk
          rw [heq]
          exact List.mem_cons_self)
      -- What has been taken is one chain, all of whose nodes were at the remote list.
      have hrestspot : ∀ n ∈ rest, spot n = some (.conRemote wk) := fun n hn =>
        (h.located (.conRemote wk) n).mp (by
          change n ∈ l.conRemote wk
          rw [heq]
          exact List.mem_cons_of_mem _ hn)
      -- The head goes to the hand of the worker, the rest to its local list.
      have hmoved := ((h.located.pop (x := .conRemote wk) heq (List.nodup_cons.mp hnodup).1).push
        (Function.update_self ..) (.taken wk)).move (.conRemote wk) (.conLocal wk)
      refine ⟨fun n => if n ∈ rest then some (.conLocal wk) else
        if n = head then some (.taken wk) else spot n, ?_⟩
      rw [htake]
      refine
        { local_ := fun w => ?_
          remote := fun w => ?_
          staged := h.same_staged rfl rfl hflushed
          located := ?_
          pooled := fun n x hx => ?_
          out_iff := fun n w hi => ?_
          known := h.known
          homes := h.homes
          foreign := h.foreign
          keepers := h.keepers
          emptied := hemptied
          workers := h.workers_update fun _ => hw
          full := h.full }
      · by_cases hw : w = wk
        · subst hw
          unfold State.entry State.taken
          simp only [Function.update_self]
          exact ⟨rfl, q, hq, hrest⟩
        · exact hother w hw rest
      · by_cases hw : w = wk
        · simp only [hw, Function.update_self]
          rfl
        · simp only [Function.update_of_ne hw]
          exact h.remote w
      · refine hmoved.congr (fun x => ?_) fun n => ?_
        · cases x with
          | conLocal w =>
              by_cases hw : w = wk
              · subst hw
                simp [State.places, hnil]
              · simp [State.places, hw]
          | conRemote w =>
              by_cases hw : w = wk
              · subst hw
                simp [State.places]
              · simp [State.places, hw]
          | staged => simp [State.places]
          | taken w =>
              by_cases hw : w = wk
              · subst hw
                simp [State.places, State.taken, hpc]
              · simp [State.places, State.taken, hw]
        · by_cases hn : n = head
          · subst hn
            simp [(List.nodup_cons.mp hnodup).1]
          · simp [hn]
      · by_cases hrest : n ∈ rest
        · rw [if_pos hrest] at hx
          cases hx
          exact h.pooled n (.conRemote wk) (hrestspot n hrest)
        · rw [if_neg hrest] at hx
          by_cases hn : n = head
          · rw [if_pos hn] at hx
            cases hx
            rw [hn]
            exact h.pooled head (.conRemote wk) hhead
          · rw [if_neg hn] at hx
            exact h.pooled n x hx
      · refine (h.out_iff n w hi).trans ?_
        by_cases hrest : n ∈ rest
        · rw [if_pos hrest, hrestspot n hrest]
          exact ⟨nofun, nofun⟩
        · rw [if_neg hrest]
          by_cases hn : n = head
          · rw [if_pos hn, hn, hhead]
            exact ⟨nofun, nofun⟩
          · rw [if_neg hn]

omit [DecidableEq N] in
/-- Where an operation ends nothing is drained. -/
theorem drained_of_idle {wk w : Nat} {p : Option N}
    (h : Function.update s.pc wk .idle w = .drained p) : w ≠ wk ∧ s.pc w = .drained p := by
  by_cases hw : w = wk
  · rw [hw, Function.update_self] at h
    cases h
  · rw [Function.update_of_ne hw] at h
    exact ⟨hw, h⟩

/-- `alloc` takes the head of a drained chain. -/
theorem inv_settle_some (h : Inv numWorkers threshold s l spot) {wk : Nat} {head : N}
    (hpc : s.pc wk = .drained (some head)) :
    ∃ spot', Inv numWorkers threshold
      { s with
        conLocal := Function.update s.conLocal wk (s.nextOf head)
        out := Function.update s.out head true
        pc := Function.update s.pc wk .idle } l spot' := by
  have htaken : s.taken wk = [head] := by
    unfold State.taken
    rw [hpc]
    rfl
  have hc := h.local_ wk
  rw [htaken] at hc
  rcases hc with ⟨_, q, hq, hrest⟩
  -- The drained chain is at the worker, with its head about to go out.
  have hspot : spot head = some (.taken wk) :=
    (h.located (.taken wk) head).mp (by
      change head ∈ s.taken wk
      rw [htaken]
      exact List.mem_cons_self)
  rcases out_pop h hspot with ⟨hpooled, hout, hknown⟩
  have hflushed := flushed_update wk .idle (by rw [hpc]; nofun) nofun
  refine ⟨Function.update spot head none, ?_⟩
  refine
    { local_ := fun w => ?_
      remote := h.remote
      staged := h.same_staged rfl rfl hflushed
      located := ?_
      pooled := hpooled
      out_iff := hout
      known := hknown
      homes := h.homes
      foreign := h.foreign
      keepers := h.keepers
      emptied := fun w p hw => ?_
      workers := h.workers_update fun hx => absurd rfl hx
      full := h.full }
  · by_cases hw : w = wk
    · subst hw
      unfold State.entry State.taken
      simp only [Function.update_self, List.nil_append]
      rw [nextOf_eq hq]
      exact hrest
    · have hold := h.local_ w
      unfold State.entry State.taken at hold ⊢
      simp only [Function.update_of_ne hw]
      exact hold
  · refine (h.located.pop (x := .taken wk) htaken List.not_mem_nil).congr (fun x => ?_) fun _ => rfl
    cases x with
    | taken w =>
        by_cases hw : w = wk
        · subst hw
          simp [State.places, State.taken]
        · simp [State.places, State.taken, hw]
    | conLocal | conRemote | staged => simp [State.places]
  · rcases drained_of_idle hw with ⟨hne, hw⟩
    change Function.update s.conLocal wk _ w = none
    rw [Function.update_of_ne hne]
    exact h.emptied w p hw

omit [DecidableEq N] in
/-- `alloc` found nothing. -/
theorem inv_idle (h : Inv numWorkers threshold s l spot) {wk : Nat}
    (hpc : s.pc wk = .drained none) :
    Inv numWorkers threshold { s with pc := Function.update s.pc wk .idle } l spot := by
  -- No record of a staging list is under way.
  have hflushed := flushed_update wk .idle (by rw [hpc]; nofun) nofun
  have htaken : ∀ w, State.taken { s with pc := Function.update s.pc wk .idle } w = s.taken w := by
    intro w
    unfold State.taken
    by_cases hw : w = wk
    · simp only [hw, Function.update_self, hpc]
      rfl
    · simp only [Function.update_of_ne hw]
  refine
    { local_ := fun w => ?_
      remote := h.remote
      staged := h.same_staged rfl rfl hflushed
      located := ?_
      pooled := h.pooled
      out_iff := h.out_iff
      known := h.known
      homes := h.homes
      foreign := h.foreign
      keepers := h.keepers
      emptied := fun w p hw => ?_
      workers := h.workers_update fun hx => absurd rfl hx
      full := h.full }
  · have hentry : State.entry { s with pc := Function.update s.pc wk .idle } w = s.entry w := by
      unfold State.entry
      by_cases hw : w = wk
      · simp only [hw, Function.update_self, hpc]
        exact h.emptied wk none hpc
      · simp only [Function.update_of_ne hw]
    rw [htaken, hentry]
    exact h.local_ w
  · refine h.located.congr (fun x => ?_) fun _ => rfl
    cases x with
    | taken w => exact htaken w
    | conLocal | conRemote | staged => rfl
  · exact h.emptied w p (drained_of_idle hw).2

/-- A node comes from a caller to a place. -/
theorem out_push (hp : ∀ n x, spot n = some x → info s.heap n = some (x.home, false))
    (ho : ∀ n wk, info s.heap n = some (wk, false) → (s.out n = true ↔ spot n = none))
    (hk : ∀ n, s.out n = true → info s.heap n ≠ none) {n : N} {x : Spot}
    (hi : info s.heap n = some (x.home, false)) :
    (∀ m y, Function.update spot n (some x) m = some y → info s.heap m = some (y.home, false)) ∧
    (∀ m wk, info s.heap m = some (wk, false) →
      (Function.update s.out n false m = true ↔ Function.update spot n (some x) m = none)) ∧
    ∀ m, Function.update s.out n false m = true → info s.heap m ≠ none := by
  refine ⟨fun m y hy => ?_, fun m wk hm => ?_, fun m hm => ?_⟩
  · -- The node that comes is of its owner's pool; the others were there before.
    by_cases hne : m = n
    · rw [hne, Function.update_self] at hy
      cases hy
      rw [hne, hi]
    · rw [Function.update_of_ne hne] at hy
      exact hp m y hy
  · by_cases hne : m = n
    · rw [hne, Function.update_self, Function.update_self]
      exact ⟨nofun, nofun⟩
    · rw [Function.update_of_ne hne, Function.update_of_ne hne]
      exact ho m wk hm
  · by_cases hne : m = n
    · rw [hne, Function.update_self] at hm
      cases hm
    · rw [Function.update_of_ne hne] at hm
      exact hk m hm

/-- `dealloc` by the worker that has allocated the node. -/
theorem inv_giveHome (h : Inv numWorkers threshold s l spot) {cur : Nat} {node : N}
    (hpc : s.pc cur = .idle) (hout : s.out node = true)
    (hi : info s.heap node = some (cur, false)) :
    ∃ spot', Inv numWorkers threshold
      { s with
        heap := setNext s.heap node (s.conLocal cur)
        conLocal := Function.update s.conLocal cur (some node)
        out := Function.update s.out node false }
      { l with conLocal := Function.update l.conLocal cur (node :: l.conLocal cur) } spot' := by
  have hspot := h.spot_of_out hout
  have hlinks := links_setNext (p := s.conLocal cur) (heap_of_info hi)
  rcases out_push (x := .conLocal cur) h.pooled h.out_iff h.known hi with ⟨hpooled, hout', hknown⟩
  -- The node is put before the own local list; the other places stay.
  refine ⟨Function.update spot node (some (.conLocal cur)), ?_⟩
  refine
    { local_ := fun w => ?_
      remote := fun w => ?_
      staged := fun c k => ?_
      located := ?_
      pooled := fun n x hx => ?_
      out_iff := fun n w hn => ?_
      known := fun n hn => ?_
      homes := fun n w b hn => ?_
      foreign := h.foreign
      keepers := h.keepers
      emptied := fun w p hw => ?_
      workers := h.workers
      full := h.full }
  · rw [hlinks]
    -- The own list gets the node at its head; the chains of the others do not go through it.
    by_cases hw : w = cur
    · subst hw
      unfold State.entry State.taken
      simp only [hpc, Function.update_self, List.nil_append]
      exact (h.idle_local hpc).push (h.located.not_mem (x := .conLocal w) (by rw [hspot]; nofun))
    · have hold := h.relink_local (a := node) (v := some (s.conLocal cur)) w
        (by rw [hspot]; nofun) (by rw [hspot]; nofun)
      unfold State.entry State.taken at hold ⊢
      simp only [Function.update_of_ne hw]
      exact hold
  · rw [hlinks]
    exact h.relink_remote (by rw [hspot]; nofun)
  · exact h.relink_staged (by rw [hspot]; nofun) hlinks (fun _ => Iff.rfl) rfl
  · refine (h.located.push hspot (.conLocal cur)).congr (fun x => ?_) fun _ => rfl
    -- The node is of one place only, and that is the own list.
    cases x with
    | conLocal w =>
        by_cases hw : w = cur
        · subst hw
          simp [State.places]
        · simp [State.places, hw]
    | conRemote | staged => simp [State.places]
    | taken => simp [State.places, State.taken]
  · rw [info_setNext]
    exact hpooled n x hx
  · rw [info_setNext] at hn
    exact hout' n w hn
  · rw [info_setNext]
    exact hknown n hn
  · rw [info_setNext] at hn
    exact h.homes n w b hn
  · have hne : w ≠ cur := by
      rintro rfl
      rw [show s.pc w = _ from hw] at hpc
      cases hpc
    change Function.update s.conLocal cur _ w = none
    rw [Function.update_of_ne hne]
    exact h.emptied w p hw

omit [DecidableEq N] in
theorem setPro_self (s : State N) (cur home : Nat) (pro : ProList N) :
    s.setPro cur home pro cur home = pro := by
  rw [State.setPro, Function.update_self, Function.update_self]

omit [DecidableEq N] in
theorem setPro_of_ne (s : State N) {cur home c k : Nat} (pro : ProList N)
    (hne : ¬ (c = cur ∧ k = home)) : s.setPro cur home pro c k = s.pro c k := by
  rw [State.setPro]
  by_cases hc : c = cur
  · subst hc
    rw [Function.update_self, Function.update_of_ne fun hk => hne ⟨rfl, hk⟩]
  · rw [Function.update_of_ne hc]

/-- The staging lists, after one of them has changed. -/
def stage (l : Lists N) (cur home : Nat) (batch : List N) : Nat → Nat → List N :=
  Function.update l.staged cur (Function.update (l.staged cur) home batch)

omit [DecidableEq N] in
theorem stage_self (l : Lists N) (cur home : Nat) (batch : List N) :
    stage l cur home batch cur home = batch := by
  rw [stage, Function.update_self, Function.update_self]

omit [DecidableEq N] in
theorem stage_of_ne (l : Lists N) {cur home c k : Nat} (batch : List N)
    (hne : ¬ (c = cur ∧ k = home)) : stage l cur home batch c k = l.staged c k := by
  rw [stage]
  by_cases hc : c = cur
  · subst hc
    rw [Function.update_self, Function.update_of_ne fun hk => hne ⟨rfl, hk⟩]
  · rw [Function.update_of_ne hc]

omit [DecidableEq N] in
/-- A staging list that changes belongs to a worker and to the home of others'
    nodes, and is not too long. -/
theorem Inv.bounds (h : Inv numWorkers threshold s l spot) {cur home : Nat} (batch : List N)
    (hcur : cur < numWorkers) (hne : home ≠ cur) (hlen : batch.length ≤ threshold) :
    (∀ wk, stage l cur home batch wk wk = []) ∧
    (∀ c k, stage l cur home batch c k ≠ [] → c < numWorkers) ∧
    ∀ c k, (stage l cur home batch c k).length ≤ threshold := by
  refine ⟨fun wk => ?_, fun c k hb => ?_, fun c k => ?_⟩
  · rw [stage_of_ne l batch fun hx => hne (hx.2.symm.trans hx.1)]
    exact h.foreign wk
  · by_cases hx : c = cur ∧ k = home
    · rw [hx.1]
      exact hcur
    · rw [stage_of_ne l batch hx] at hb
      exact h.keepers c k hb
  · by_cases hx : c = cur ∧ k = home
    · rw [hx.1, hx.2, stage_self]
      exact hlen
    · rw [stage_of_ne l batch hx]
      exact h.full c k

omit [DecidableEq N] in
/-- A worker that is idle has recorded its staging lists. -/
theorem Inv.records (h : Inv numWorkers threshold s l spot) {cur : Nat} (hpc : s.pc cur = .idle)
    (home : Nat) : (s.pro cur home).Records s.heap (l.staged cur home) := by
  rcases h.staged cur home with ⟨node, hp, _⟩ | ⟨_, hrecords⟩
  · rw [hpc] at hp
    cases hp
  · exact hrecords

/-- `dealloc` of another worker's node, to a staging list that is not full. -/
theorem inv_stage (h : Inv numWorkers threshold s l spot) {cur home : Nat} {node : N}
    (hcur : cur < numWorkers) (hpc : s.pc cur = .idle) (hout : s.out node = true)
    (hi : info s.heap node = some (home, false)) (hne : home ≠ cur)
    (hnum : (s.pro cur home).num < threshold) :
    ∃ spot', Inv numWorkers threshold
      { s with
        heap := setNext s.heap node (s.pro cur home).first
        pro := s.setPro cur home
          { first := some node
            last := if (s.pro cur home).num = 0 then some node else (s.pro cur home).last
            num := (s.pro cur home).num + 1 }
        out := Function.update s.out node false }
      { l with staged := stage l cur home (node :: l.staged cur home) } spot' := by
  have hspot := h.spot_of_out hout
  have hlinks := links_setNext (p := (s.pro cur home).first) (heap_of_info hi)
  rcases out_push (x := .staged cur home) h.pooled h.out_iff h.known hi with
    ⟨hpooled, hout', hknown⟩
  rcases h.records hpc home with ⟨hchain, hlast, hlen⟩
  rcases h.bounds (node :: l.staged cur home) hcur hne
    (by rw [List.length_cons, ← hlen]; exact hnum) with ⟨hforeign, hkeepers, hfull⟩
  -- The node is put before the staging list of its home.
  refine ⟨Function.update spot node (some (.staged cur home)), ?_⟩
  refine
    { local_ := fun w => ?_
      remote := fun w => ?_
      staged := fun c k => ?_
      located := ?_
      pooled := fun n x hx => ?_
      out_iff := fun n w hn => ?_
      known := fun n hn => ?_
      homes := fun n w b hn => ?_
      foreign := hforeign
      keepers := hkeepers
      emptied := h.emptied
      workers := h.workers
      full := hfull }
  · rw [hlinks]
    exact h.relink_local _ (by rw [hspot]; nofun) (by rw [hspot]; nofun)
  · rw [hlinks]
    exact h.relink_remote (by rw [hspot]; nofun)
  · change State.Stages _ c k (stage l cur home (node :: l.staged cur home) c k)
    -- Of the staging lists only this one is longer, and not longer than the threshold.
    by_cases hx : c = cur ∧ k = home
    · rcases hx with ⟨rfl, rfl⟩
      rw [stage_self]
      refine .inr ⟨fun n hn => ?_, ?_⟩
      · rw [show s.pc c = _ from hn] at hpc
        cases hpc
      · simp only [setPro_self]
        refine ⟨?_, ?_, by rw [hlen, List.length_cons]⟩
        · rw [hlinks]
          exact hchain.push (h.located.not_mem (x := .staged c k) (by rw [hspot]; nofun))
        · rw [hlast, hlen]
          cases l.staged c k with
          | nil => rfl
          | cons m b =>
              rw [List.getLast?_cons_cons]
              rfl
    · rw [stage_of_ne l _ hx]
      exact h.relink_staged (by rw [hspot]; nofun) hlinks (fun _ => Iff.rfl)
        (setPro_of_ne s _ hx)
  · refine (h.located.push hspot (.staged cur home)).congr (fun x => ?_) fun _ => rfl
    cases x with
    | staged c k =>
        by_cases hx : c = cur ∧ k = home
        · rcases hx with ⟨rfl, rfl⟩
          simp [State.places, stage_self]
        · simp only [State.places, stage_of_ne l _ hx]
          rw [Function.update_of_ne (by simpa using hx)]
          rfl
    | conLocal | conRemote => simp [State.places]
    | taken => simp [State.places, State.taken]
  · rw [info_setNext]
    exact hpooled n x hx
  · rw [info_setNext] at hn
    exact hout' n w hn
  · rw [info_setNext]
    exact hknown n hn
  · rw [info_setNext] at hn
    exact h.homes n w b hn

/-- `dealloc` of another worker's node, when the staging list is full. -/
theorem inv_flush (h : Inv numWorkers threshold s l spot) {cur home : Nat} {node last : N}
    (hcur : cur < numWorkers) (hpc : s.pc cur = .idle) (hout : s.out node = true)
    (hi : info s.heap node = some (home, false)) (hne : home ≠ cur) (h1 : 1 ≤ threshold)
    (hl : (s.pro cur home).last = some last) :
    ∃ spot', Inv numWorkers threshold
      { s with
        heap := setNext s.heap last (s.conRemote home)
        conRemote := Function.update s.conRemote home (s.pro cur home).first
        out := Function.update s.out node false
        pc := Function.update s.pc cur (.flushed home node) }
      { l with
        conRemote := Function.update l.conRemote home (l.staged cur home ++ l.conRemote home)
        staged := stage l cur home [node] } spot' := by
  have hspot := h.spot_of_out hout
  rcases h.records hpc home with ⟨hchain, hlast, hlen⟩
  rw [hl] at hlast
  have hmem : last ∈ l.staged cur home := List.mem_of_getLast? hlast.symm
  have hlspot : spot last = some (.staged cur home) :=
    (h.located (.staged cur home) last).mp hmem
  -- The last node of the batch is linked to what the remote list holds.
  have hlinks := links_setNext (p := s.conRemote home) (heap_of_info (h.pooled last _ hlspot))
  rcases h.bounds [node] hcur hne h1 with ⟨hforeign, hkeepers, hfull⟩
  have hnode : node ∉ l.staged cur home :=
    h.located.not_mem (x := .staged cur home) (by rw [hspot]; nofun)
  -- The batch moves to the remote list, and the node takes its place.
  have hmoved := h.located.move (.staged cur home) (.conRemote home)
  have hpushed := hmoved.push ((if_neg hnode).trans hspot) (.staged cur home)
  have hpooled₀ : ∀ n x, (if n ∈ l.staged cur home then some (.conRemote home) else spot n) =
      some x → info s.heap n = some (x.home, false) := by
    intro n x hx
    by_cases hb : n ∈ l.staged cur home
    · rw [if_pos hb] at hx
      cases hx
      exact h.pooled n (.staged cur home) ((h.located (.staged cur home) n).mp hb)
    · rw [if_neg hb] at hx
      exact h.pooled n x hx
  have hout₀ : ∀ n w, info s.heap n = some (w, false) → (s.out n = true ↔
      (if n ∈ l.staged cur home then some (Spot.conRemote home) else spot n) = none) := by
    intro n w hn
    refine (h.out_iff n w hn).trans ?_
    by_cases hb : n ∈ l.staged cur home
    · rw [if_pos hb, (h.located (.staged cur home) n).mp hb]
      exact ⟨nofun, nofun⟩
    · rw [if_neg hb]
  rcases out_push (x := .staged cur home) hpooled₀ hout₀ h.known hi with ⟨hpooled, hout', hknown⟩
  refine ⟨Function.update
    (fun n => if n ∈ l.staged cur home then some (.conRemote home) else spot n)
    node (some (.staged cur home)), ?_⟩
  refine
    { local_ := fun w => ?_
      remote := fun w => ?_
      staged := fun c k => ?_
      located := hpushed.congr (fun x => ?_) fun _ => rfl
      pooled := fun n x hx => ?_
      out_iff := fun n w hn => ?_
      known := fun n hn => ?_
      homes := fun n w b hn => ?_
      foreign := hforeign
      keepers := hkeepers
      emptied := fun w p hw => ?_
      workers := h.workers_update fun _ => hcur
      full := hfull }
  · rw [hlinks]
    have hold := h.relink_local (a := last) (v := some (s.conRemote home)) w
      (by rw [hlspot]; nofun) (by rw [hlspot]; nofun)
    unfold State.entry State.taken at hold ⊢
    by_cases hw : w = cur
    · simp only [hw, Function.update_self]
      simp only [hw, hpc] at hold
      exact hold
    · simp only [Function.update_of_ne hw]
      exact hold
  · rw [hlinks]
    -- The chain at the home is the batch with the old list behind it.
    by_cases hw : w = home
    · subst hw
      simp only [Function.update_self]
      exact hchain.splice (h.remote w) hlast.symm
        (h.located.not_mem (x := .conRemote w) (by rw [hlspot]; nofun))
    · simp only [Function.update_of_ne hw]
      exact h.relink_remote (by rw [hlspot]; nofun)
  · change State.Stages _ c k (stage l cur home [node] c k)
    -- The record of the list is still the old one; the pc says that it is to be restarted.
    by_cases hx : c = cur ∧ k = home
    · rcases hx with ⟨rfl, rfl⟩
      rw [stage_self]
      exact .inl ⟨node, Function.update_self .., rfl⟩
    · rw [stage_of_ne l _ hx]
      refine h.relink_staged ?_ hlinks (fun m => ?_) rfl
      · rw [hlspot]
        intro he
        cases he
        exact hx ⟨rfl, rfl⟩
      · by_cases hc : c = cur
        · subst hc
          simp only [Function.update_self, hpc]
          exact iff_of_false (fun he => by cases he; exact hx ⟨rfl, rfl⟩) nofun
        · simp only [Function.update_of_ne hc]
  · cases x with
    | staged c k =>
        by_cases hx : c = cur ∧ k = home
        · rcases hx with ⟨rfl, rfl⟩
          simp [State.places, stage_self]
        · simp only [State.places, stage_of_ne l _ hx]
          rw [Function.update_of_ne (by simpa using hx), Function.update_of_ne (by nofun),
            Function.update_of_ne (by simpa using hx)]
          rfl
    | conRemote w =>
        by_cases hw : w = home
        · subst hw
          simp [State.places]
        · simp [State.places, hw]
    | conLocal => simp [State.places]
    | taken w =>
        by_cases hw : w = cur
        · subst hw
          simp [State.places, State.taken, hpc]
        · simp [State.places, State.taken, hw]
  · rw [info_setNext]
    exact hpooled n x hx
  · rw [info_setNext] at hn
    exact hout' n w hn
  · rw [info_setNext]
    exact hknown n hn
  · rw [info_setNext] at hn
    exact h.homes n w b hn
  · refine h.emptied w p ?_
    by_cases hc : w = cur
    · simp only [hc, Function.update_self] at hw
      cases hw
    · simp only [Function.update_of_ne hc] at hw
      exact hw

/-- `dealloc` restarts a staging list. -/
theorem inv_restart (h : Inv numWorkers threshold s l spot) {cur home : Nat} {node : N}
    (hpc : s.pc cur = .flushed home node) :
    Inv numWorkers threshold
      { s with
        heap := setNext s.heap node none
        pro := s.setPro cur home
          { first := some node
            last := some node
            num := 1 }
        pc := Function.update s.pc cur .idle } l spot := by
  -- The batch went home, so the list is the node alone.
  have hbatch : l.staged cur home = [node] := by
    rcases h.staged cur home with ⟨n, hn, hb⟩ | ⟨hno, _⟩
    · rw [hpc] at hn
      cases hn
      exact hb
    · exact absurd hpc (hno node)
  have hspot : spot node = some (.staged cur home) :=
    (h.located (.staged cur home) node).mp (by
      change node ∈ l.staged cur home
      rw [hbatch]
      exact List.mem_cons_self)
  have hlinks := links_setNext (p := none) (heap_of_info (h.pooled node _ hspot))
  refine
    { local_ := fun w => ?_
      remote := fun w => ?_
      staged := fun c k => ?_
      located := h.located.congr (fun x => ?_) fun _ => rfl
      pooled := fun n x hx => ?_
      out_iff := fun n w hn => ?_
      known := fun n hn => ?_
      homes := fun n w b hn => ?_
      foreign := h.foreign
      keepers := h.keepers
      emptied := fun w p hw => h.emptied w p (drained_of_idle hw).2
      workers := h.workers_update fun hx => absurd rfl hx
      full := h.full }
  · rw [hlinks]
    have hold := h.relink_local (a := node) (v := some none) w
      (by rw [hspot]; nofun) (by rw [hspot]; nofun)
    unfold State.entry State.taken at hold ⊢
    -- The worker is idle again; its local list is as it was.
    by_cases hw : w = cur
    · simp only [hw, Function.update_self]
      simp only [hw, hpc] at hold
      exact hold
    · simp only [Function.update_of_ne hw]
      exact hold
  · rw [hlinks]
    exact h.relink_remote (by rw [hspot]; nofun)
  · by_cases hx : c = cur ∧ k = home
    · rcases hx with ⟨rfl, rfl⟩
      rw [hbatch]
      refine .inr ⟨fun n => ?_, ?_⟩
      · simp only [Function.update_self]
        nofun
      · simp only [setPro_self]
        refine ⟨?_, rfl, rfl⟩
        rw [hlinks]
        exact ⟨rfl, none, Function.update_self .., rfl⟩
    · refine h.relink_staged ?_ hlinks (fun m => ?_) (setPro_of_ne s _ hx)
      · rw [hspot]
        intro he
        cases he
        exact hx ⟨rfl, rfl⟩
      · by_cases hc : c = cur
        · subst hc
          simp only [Function.update_self, hpc]
          exact iff_of_false nofun (fun he => by cases he; exact hx ⟨rfl, rfl⟩)
        · simp only [Function.update_of_ne hc]
  · cases x with
    | taken w =>
        by_cases hw : w = cur
        · subst hw
          simp [State.places, State.taken, hpc]
        · simp [State.places, State.taken, hw]
    | conLocal | conRemote | staged => rfl
  · rw [info_setNext]
    exact h.pooled n x hx
  · rw [info_setNext] at hn
    exact h.out_iff n w hn
  · rw [info_setNext]
    exact h.known n hn
  · rw [info_setNext] at hn
    exact h.homes n w b hn

theorem inv_alloc (h : Inv numWorkers threshold s l spot) {wk size : Nat} {fresh : N}
    (hg : guard numWorkers s (.alloc wk size fresh)) :
    ∃ spot', Inv numWorkers threshold (s.alloc stackSize wk size fresh)
      (listsNext threshold stackSize s l (.alloc wk size fresh)) spot' := by
  rcases hg with ⟨hw, hpc, hf⟩
  simp only [State.alloc, listsNext]
  by_cases hsize : size > stackSize
  · rw [if_pos hsize, if_pos hsize]
    exact ⟨spot, inv_wrapFresh h hf hw⟩
  · rw [if_neg hsize, if_neg hsize]
    cases hl : s.conLocal wk with
    | some node => exact inv_pop h hpc hl
    | none => exact inv_drain h hw hpc hl

theorem inv_settle (h : Inv numWorkers threshold s l spot) {wk : Nat} {fresh : N}
    (hg : guard numWorkers s (.settle wk fresh)) :
    ∃ spot', Inv numWorkers threshold (s.settle wk fresh) l spot' := by
  rcases hg with ⟨⟨head, hpc⟩, hf⟩
  unfold State.settle
  rw [hpc]
  cases head with
  | some head => exact inv_settle_some h hpc
  | none =>
      have hw : wk < numWorkers := h.workers wk (by rw [hpc]; nofun)
      exact ⟨spot, inv_idle (inv_wrapFresh h hf hw) hpc⟩

theorem inv_dealloc (h : Inv numWorkers threshold s l spot) (h1 : 1 ≤ threshold) {cur : Nat}
    {node : N} (hg : guard numWorkers s (.dealloc cur node)) :
    ∃ spot', Inv numWorkers threshold (s.dealloc threshold cur node)
      (listsNext threshold stackSize s l (.dealloc cur node)) spot' := by
  rcases hg with ⟨hcur, hpc, hout⟩
  simp only [State.dealloc, listsNext]
  cases hnode : s.heap node with
  | none => exact absurd (by rw [info, hnode]; rfl) (h.known node hout)
  | some nd =>
      by_cases hover : nd.oversized = true
      · simp only [hover, if_true]
        exact ⟨spot, inv_free h hout⟩
      · have hi : info s.heap node = some (nd.allocWk, false) := by
          rw [info, hnode, Option.map_some, eq_false_of_ne_true hover]
        simp only [if_neg hover, State.nodeGive, Pool.nodeGive]
        by_cases hhome : nd.allocWk = cur
        · rw [if_pos hhome, if_pos hhome]
          rw [hhome] at hi
          exact inv_giveHome h hpc hout hi
        · rw [if_neg hhome, if_neg hhome]
          rcases h.records hpc nd.allocWk with ⟨_, hlast, hlen⟩
          simp only [← hlen]
          by_cases hnum : (s.pro cur nd.allocWk).num < threshold
          · rw [if_pos hnum, if_pos hnum]
            exact inv_stage h hcur hpc hout hi hhome hnum
          · rw [if_neg hnum, if_neg hnum]
            -- A list this long has a last node.
            cases hl : (s.pro cur nd.allocWk).last with
            | none =>
                rw [hl] at hlast
                rw [List.getLast?_eq_none_iff.mp hlast.symm] at hlen
                rw [hlen] at hnum
                exact absurd h1 hnum
            | some last => exact inv_flush h hcur hpc hout hi hhome h1 hl

/-- Every action keeps the invariant, for what it does to the lists. -/
theorem inv_next (h : Inv numWorkers threshold s l spot) (h1 : 1 ≤ threshold) {a : Action N}
    (hg : guard numWorkers s a) :
    ∃ spot', Inv numWorkers threshold (next threshold stackSize s a)
      (listsNext threshold stackSize s l a) spot' := by
  cases a with
  | alloc wk size fresh => exact inv_alloc h hg
  | settle wk fresh => exact inv_settle h hg
  | dealloc cur node => exact inv_dealloc h h1 hg
  | restart cur =>
      rcases hg with ⟨home, node, hpc⟩
      refine ⟨spot, ?_⟩
      change Inv numWorkers threshold (s.restart cur) l spot
      unfold State.restart
      rw [hpc]
      exact inv_restart h hpc
  | freeDesc node => exact ⟨spot, inv_free h hg⟩

omit [DecidableEq N] in
theorem inv_init (hi : init s) : Inv numWorkers threshold s Lists.empty fun _ => none := by
  rcases hi with ⟨hheap, hlocal, hremote, hpro, hout, hpc⟩
  have hinfo : ∀ n, info s.heap n = none := fun n => by
    rw [info, hheap]
    rfl
  -- There is no node, and nothing is under way.
  refine
    { local_ := fun w => ?_
      remote := fun w => hremote w
      staged := fun c k => .inr ⟨fun n => by rw [hpc]; nofun, ?_⟩
      located := fun x n => ?_
      pooled := nofun
      out_iff := fun n w hn => ?_
      known := fun n hn => ?_
      homes := fun n w b hn => ?_
      foreign := fun _ => rfl
      keepers := fun _ _ hb => absurd rfl hb
      emptied := fun w _ _ => hlocal w
      workers := fun w hw => absurd (hpc w) hw
      full := fun _ _ => Nat.zero_le _ }
  · unfold State.entry State.taken
    rw [hpc]
    exact hlocal w
  · rw [hpro]
    exact ⟨rfl, rfl, rfl⟩
  · refine ⟨fun hn => ?_, nofun⟩
    cases x with
    | taken w =>
        change n ∈ s.taken w at hn
        unfold State.taken at hn
        rw [hpc] at hn
        cases hn
    | conLocal | conRemote | staged => cases hn
  · rw [hinfo] at hn
    cases hn
  · rw [hout] at hn
    cases hn
  · rw [hinfo] at hn
    cases hn

/-- The lists of a reachable pool. -/
theorem inv_reachable (h1 : 1 ≤ threshold)
    (hr : (system numWorkers threshold stackSize).Reachable s) :
    ∃ (l : Lists N) (spot : N → Option Spot), Inv numWorkers threshold s l spot := by
  refine System.Reachable.induct (P := fun s => ∃ l spot, Inv numWorkers threshold s l spot) hr
    (fun s hi => ⟨_, _, inv_init hi⟩) fun s a h hg => ?_
  rcases h with ⟨l, spot, h⟩
  rcases inv_next h h1 hg with ⟨spot', h'⟩
  exact ⟨_, spot', h'⟩

end

end ReturnPool

end Pool

end Cmpth

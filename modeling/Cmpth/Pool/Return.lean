import Mathlib.Data.List.Nodup
import Cmpth.Core.Chain
import Cmpth.Core.System
import Cmpth.Pool.FreeList

/-!
# `ReturnPool` in Memory

The pool as the code keeps it: nodes linked by `next` pointers, the heads of
the lists, and the workers that move nodes between them.

A lock-held section is a step, and so is what a worker does between two of
them on what only it touches. Most operations are a single step. Two are not:
a `node_take` that finds the local list empty takes the whole remote chain
under the lock and puts what is left of it in place afterwards, and a
`node_give` that finds the staging list full links it before the remote chain
and starts a new one afterwards.

`BlockPool` is the case in which no request is too big. Of a descriptor only
its node is kept. `out` is bookkeeping: which nodes callers hold.

## Main definitions

* `Node`, `ProList`: `Node<D>` and the staging lists.
* `Pc`: Where a worker is in its operation.
* `State`, `Action`, `system`: The pool as a guarded transition system.
* `dropAllNodes`: `drop_all_nodes`.
* `Spot`, `State.places`: The places a node may be at.
* `State.Stages`: What a staging list holds.
-/

namespace Cmpth

namespace Pool

namespace ReturnPool

/-- The pool's part of a node. -/
structure Node (N : Type*) where
  next : Option N
  allocWk : Nat
  oversized : Bool
  deriving DecidableEq, Repr

/-- A staging list, as `pro_arrays` records it. -/
structure ProList (N : Type*) where
  first : Option N
  last : Option N
  num : Nat
  deriving DecidableEq, Repr

/-- A staging list with nothing in it. -/
def ProList.empty {N : Type*} : ProList N where
  first := none
  last := none
  num := 0

/-- Where a worker is in its operation. -/
inductive Pc (N : Type*) where
  | idle
  /-- `node_take` has drained the remote list; `con_local` is next. -/
  | drained (head : Option N)
  /-- `node_give` has flushed the staging list, which is to be restarted with
      the node. -/
  | flushed (home : Nat) (node : N)
  deriving DecidableEq, Repr

/-- The nodes in memory, the lists of every worker, and what is out. -/
structure State (N : Type*) where
  heap : N → Option (Node N)
  conLocal : Nat → Option N
  conRemote : Nat → Option N
  /-- `pro_arrays`, by worker and home. -/
  pro : Nat → Nat → ProList N
  out : N → Bool
  pc : Nat → Pc N

/-- The operations, cut where the lock of another worker is taken. -/
inductive Action (N : Type*) where
  /-- `alloc`, up to the lock-held section. Memory that is needed anew is at
      the address `fresh`. -/
  | alloc (wk size : Nat) (fresh : N)
  /-- `alloc`, after the lock-held section. -/
  | settle (wk : Nat) (fresh : N)
  /-- `dealloc`, up to the lock-held section. -/
  | dealloc (cur : Nat) (node : N)
  /-- `dealloc`, after the lock-held section. -/
  | restart (cur : Nat)
  /-- `free_desc`, which does without a pool. -/
  | freeDesc (node : N)
  deriving DecidableEq, Repr

variable {N : Type*}

/-- `next().get()`. -/
def State.nextOf (s : State N) (n : N) : Option N :=
  (s.heap n).bind Node.next

/-- The links in memory. -/
abbrev links (heap : N → Option (Node N)) : N → Option (Option N) :=
  linksOf Node.next heap

/-- The home of the node at an address, and whether it is oversized. -/
def info (heap : N → Option (Node N)) (n : N) : Option (Nat × Bool) :=
  (heap n).map fun node => (node.allocWk, node.oversized)

section

variable [DecidableEq N]

/-- `next().set()`. -/
def setNext (heap : N → Option (Node N)) (n : N) (p : Option N) : N → Option (Node N) :=
  Function.update heap n ((heap n).map fun node => { node with next := p })

/-- `Node::wrap_fresh`, for a caller. -/
def State.wrapFresh (s : State N) (wk : Nat) (oversized : Bool) (n : N) : State N :=
  { s with
    heap := Function.update s.heap n
      (some
        { next := none
          allocWk := wk
          oversized := oversized })
    out := Function.update s.out n true }

/-- The memory is given back to the allocator. -/
def State.free (s : State N) (n : N) : State N :=
  { s with
    heap := Function.update s.heap n none
    out := Function.update s.out n false }

/-- `alloc`, with the first part of `node_take`. -/
def State.alloc (stackSize : Nat) (s : State N) (wk size : Nat) (fresh : N) : State N :=
  if size > stackSize then s.wrapFresh wk true fresh
  else
    match s.conLocal wk with
    | some node =>
        { s with
          conLocal := Function.update s.conLocal wk (s.nextOf node)
          out := Function.update s.out node true }
    | none =>
        { s with
          conRemote := Function.update s.conRemote wk none
          pc := Function.update s.pc wk (.drained (s.conRemote wk)) }

/-- The rest of `node_take`, with the end of `alloc`. -/
def State.settle (s : State N) (wk : Nat) (fresh : N) : State N :=
  match s.pc wk with
  | .drained (some head) =>
      { s with
        conLocal := Function.update s.conLocal wk (s.nextOf head)
        out := Function.update s.out head true
        pc := Function.update s.pc wk .idle }
  | .drained none =>
      { s.wrapFresh wk false fresh with pc := Function.update s.pc wk .idle }
  | _ => s

/-- Store the record of a staging list. -/
def State.setPro (s : State N) (cur home : Nat) (pro : ProList N) : Nat → Nat → ProList N :=
  Function.update s.pro cur (Function.update (s.pro cur) home pro)

/-- `node_give` by worker `cur`, up to the end of its lock-held section. -/
def State.nodeGive (threshold : Nat) (s : State N) (home cur : Nat) (node : N) : State N :=
  if home = cur then
    { s with
      heap := setNext s.heap node (s.conLocal cur)
      conLocal := Function.update s.conLocal cur (some node) }
  else
    let pro := s.pro cur home
    if pro.num < threshold then
      { s with
        heap := setNext s.heap node pro.first
        pro := s.setPro cur home
          { first := some node
            last := if pro.num = 0 then some node else pro.last
            num := pro.num + 1 } }
    else
      { s with
        heap := match pro.last with
          | some last => setNext s.heap last (s.conRemote home)
          | none => s.heap
        conRemote := Function.update s.conRemote home pro.first
        pc := Function.update s.pc cur (.flushed home node) }

/-- `dealloc`, up to the lock-held section. -/
def State.dealloc (threshold : Nat) (s : State N) (cur : Nat) (node : N) : State N :=
  match s.heap node with
  | none => s
  | some nd =>
      if nd.oversized then s.free node
      else
        State.nodeGive threshold { s with out := Function.update s.out node false } nd.allocWk
          cur node

/-- The rest of `node_give`. -/
def State.restart (s : State N) (cur : Nat) : State N :=
  match s.pc cur with
  | .flushed home node =>
      { s with
        heap := setNext s.heap node none
        pro := s.setPro cur home
          { first := some node
            last := some node
            num := 1 }
        pc := Function.update s.pc cur .idle }
  | _ => s

variable (numWorkers threshold stackSize : Nat)

/-- A worker runs one operation at a time, and only nodes that callers hold are
    given back. -/
def guard (s : State N) : Action N → Prop
  | .alloc wk _ fresh => wk < numWorkers ∧ s.pc wk = .idle ∧ s.heap fresh = none
  | .settle wk fresh => (∃ head, s.pc wk = .drained head) ∧ s.heap fresh = none
  | .dealloc cur node => cur < numWorkers ∧ s.pc cur = .idle ∧ s.out node = true
  | .restart cur => ∃ home node, s.pc cur = .flushed home node
  | .freeDesc node => s.out node = true

/-- What an action does. -/
def next (s : State N) : Action N → State N
  | .alloc wk size fresh => s.alloc stackSize wk size fresh
  | .settle wk fresh => s.settle wk fresh
  | .dealloc cur node => s.dealloc threshold cur node
  | .restart cur => s.restart cur
  | .freeDesc node => s.free node

/-- A new pool. Nothing it serves has been allocated yet. -/
def init (s : State N) : Prop :=
  (∀ n, s.heap n = none) ∧ (∀ w, s.conLocal w = none) ∧ (∀ w, s.conRemote w = none) ∧
  (∀ cur home, s.pro cur home = .empty) ∧ (∀ n, s.out n = false) ∧ ∀ w, s.pc w = .idle

/-- The pool as a guarded transition system. -/
def system : System (State N) (Action N) where
  init := init
  guard := guard numWorkers
  next := next threshold stackSize

/-- `free_chain`, with the nodes in the order they are freed in. -/
def freeChain (fuel : Nat) (heap : N → Option (Node N)) (p : Option N) :
    Option (List N × (N → Option (Node N))) :=
  freeFrom Node.next fuel heap p

/-- Free the chains one after the other. -/
def freeChains (fuel : Nat) : (N → Option (Node N)) → List (Option N) →
    Option (List N × (N → Option (Node N)))
  | heap, [] => some ([], heap)
  | heap, p :: ps =>
      (freeChain fuel heap p).bind fun r =>
        (freeChains fuel r.2 ps).map fun r' => (r.1 ++ r'.1, r'.2)

end

/-- The places a node may be at when no caller holds it: the lists of the pool,
    and the hand of a worker about to give it to a caller. -/
inductive Spot where
  | conLocal (wk : Nat)
  | conRemote (wk : Nat)
  | staged (cur home : Nat)
  | taken (wk : Nat)
  deriving DecidableEq, Repr

/-- The worker the nodes at a place were allocated by. -/
def Spot.home : Spot → Nat
  | .conLocal wk | .conRemote wk | .staged _ wk | .taken wk => wk

/-- The head of a list, in memory. -/
def State.first (s : State N) : Spot → Option N
  | .conLocal wk => s.conLocal wk
  | .conRemote wk => s.conRemote wk
  | .staged cur home => (s.pro cur home).first
  | .taken _ => none

/-- The lists in the order in which they are freed. -/
def spots (numWorkers : Nat) : List Spot :=
  (List.range numWorkers).flatMap fun wk =>
    .conLocal wk :: .conRemote wk :: (List.range numWorkers).map (.staged wk)

/-- `drop_all_nodes`: the nodes that it frees, in its order. -/
def dropAllNodes [DecidableEq N] (numWorkers fuel : Nat) (s : State N) :
    Option (List N × (N → Option (Node N))) :=
  freeChains fuel s.heap ((spots numWorkers).map s.first)

/-- The node a worker has taken from a drained chain and not yet given to its
    caller. -/
def State.taken (s : State N) (wk : Nat) : List N :=
  match s.pc wk with
  | .drained head => head.toList
  | _ => []

/-- What is at a place, by the lists of the pool. -/
def State.places (s : State N) (l : Lists N) : Spot → List N
  | .conLocal wk => l.conLocal wk
  | .conRemote wk => l.conRemote wk
  | .staged cur home => l.staged cur home
  | .taken wk => s.taken wk

/-- Where the local list of a worker begins, after the node the worker has
    taken: a drained chain is in the worker's hand before it is in place. -/
def State.entry (s : State N) (wk : Nat) : Option N :=
  match s.pc wk with
  | .drained head => head
  | _ => s.conLocal wk

/-- The staging list is as recorded. -/
def ProList.Records (pro : ProList N) (heap : N → Option (Node N)) (batch : List N) : Prop :=
  Chain (links heap) pro.first batch ∧ pro.last = batch.getLast? ∧ pro.num = batch.length

/-- What a staging list holds. After a flush it is the node it is to be
    restarted with. -/
def State.Stages (s : State N) (cur home : Nat) (batch : List N) : Prop :=
  (∃ node, s.pc cur = .flushed home node ∧ batch = [node]) ∨
  (∀ node, s.pc cur ≠ .flushed home node) ∧ (s.pro cur home).Records s.heap batch

end ReturnPool

end Pool

end Cmpth

import Cmpth.Post.Scan
import Cmpth.Post.Serve

/-!
# The Contract of the Post Delegators

Scanning every slot and draining a list of those that were posted are the same
to the consumer: both meet the contract in every state, and after a serve with
nothing else going on, both have served the same posts.

## Main definitions

* `Agree`: Two delegators have handed out the same posts.

## Theorems

* `agree_of_contract`: Delegators that meet the contract, with the same posts, agree when each has
  made a serve with nothing else going on.
* `posts_served`: Both delegators meet the contract, and agree.
* `posts_served_postAgain`: In both delegators, the producer's second post comes after a serve, and
  one more serve covers it.
-/

namespace Cmpth

namespace Post

variable {P : Type*} [DecidableEq P]

/-- For each producer, the last number handed out is the same. -/
def Agree (log log' : List (List (Ticket P))) : Prop :=
  ∀ p, lastServed p log.flatten = lastServed p log'.flatten

section

variable {T T' σ σ' α α' : Type*} {X : PostSystem P T σ α} {Y : PostSystem P T' σ' α'}
  {s : σ} {s' : σ'}

/-- Delegators that meet the contract, with the same posts, agree when each has
    made a serve with nothing else going on. -/
theorem agree_of_contract (h : ServeContract X s) (h' : ServeContract Y s') (hq : X.Quiet s)
    (hq' : Y.Quiet s') (hmark : X.mark s = Y.mark s') (t : T) (t' : T') :
    ∃ n n', X.system.Legal s (X.alone t n) ∧ Y.system.Legal s' (Y.alone t' n') ∧
      X.Quiet (X.system.run s (X.alone t n)) ∧ Y.Quiet (Y.system.run s' (Y.alone t' n')) ∧
      Agree (X.log (X.system.run s (X.alone t n))) (Y.log (Y.system.run s' (Y.alone t' n'))) := by
  rcases h.settles hq t with ⟨n, hlegal, hquiet, hserved⟩
  rcases h'.settles hq' t' with ⟨n', hlegal', hquiet', hserved'⟩
  refine ⟨n, n', hlegal, hlegal', hquiet, hquiet', fun p => ?_⟩
  rw [(hserved p).2, (hserved' p).2, hmark]

end

variable {T T' : Type*} [DecidableEq T] [DecidableEq T']

/-- However posts, serves and locked sections interleave, both delegators meet
    the contract; and where the same posts were made to both, they agree once
    each has made a serve with nothing else going on. -/
theorem posts_served (latency : Nat) {s : Queue.State P T} {s' : Scan.State P T'}
    (h : (Queue.system latency).Reachable s) (h' : Scan.system.Reachable s') :
    ServeContract (Queue.posts latency) s ∧ ServeContract Scan.posts s' ∧
      (Queue.Quiet s → Scan.Quiet s' → s.mark = s'.mark → ∀ t t', ∃ n n',
        (Queue.system latency).Legal s ((Queue.posts latency).alone t n) ∧
        Scan.system.Legal s' (Scan.posts.alone t' n') ∧
        Queue.Quiet ((Queue.system latency).run s ((Queue.posts latency).alone t n)) ∧
        Scan.Quiet (Scan.system.run s' (Scan.posts.alone t' n')) ∧
        Agree ((Queue.system latency).run s ((Queue.posts latency).alone t n)).log
          (Scan.system.run s' (Scan.posts.alone t' n')).log) := by
  have hqueue := Queue.contract h
  have hscan := Scan.contract h'
  exact ⟨hqueue, hscan, fun hq hq' hmark => agree_of_contract hqueue hscan hq hq' hmark⟩

/-- A scanning delegator nobody has used, with two producers and a server. -/
def Scan.fresh : Scan.State Bool Unit where
  mark := fun _ => 0
  registered := fun _ => false
  next := fun _ => none
  seen := fun _ => 0
  head := none
  busy := false
  batch := []
  log := []
  post := fun _ => .idle
  serve := fun _ => .idle

/-- A producer posts, is served, and posts again. -/
def Scan.postAgain : List (Scan.Action Bool Unit) :=
  Scan.Action.post true :: List.replicate 4 (Scan.Action.postStep true false) ++
    Scan.Action.serveNow () :: List.replicate 6 (Scan.Action.step ()) ++ [Scan.Action.post true]

/-- In both delegators, the producer's second post comes after a serve, and one
    more serve covers it. -/
theorem posts_served_postAgain : ∃ n n',
    Agree ((Queue.system 100).run ((Queue.system 100).run Queue.fresh Queue.postAgain)
        ((Queue.posts 100).alone () n)).log
      (Scan.system.run (Scan.system.run Scan.fresh Scan.postAgain)
        (Scan.posts.alone () n')).log := by
  have hreach : (Queue.system 100).Reachable ((Queue.system 100).run Queue.fresh Queue.postAgain) :=
    System.reachable_run _ _ _
      ⟨fun _ => rfl, fun _ => rfl, fun _ => rfl, rfl, rfl, rfl, rfl, fun _ => rfl, fun _ => rfl⟩
      (by decide +kernel)
  have hreach' : Scan.system.Reachable (Scan.system.run Scan.fresh Scan.postAgain) :=
    System.reachable_run _ _ _
      ⟨fun _ => rfl, fun _ => rfl, fun _ => rfl, rfl, rfl, rfl, rfl, fun _ => rfl, fun _ => rfl⟩
      (by decide +kernel)
  have hmark : ((Queue.system 100).run Queue.fresh Queue.postAgain).mark =
      (Scan.system.run Scan.fresh Scan.postAgain).mark := by
    funext p
    cases p <;> decide +kernel
  rcases (posts_served 100 hreach hreach').2.2 ⟨by decide +kernel, fun () => by decide +kernel⟩
    ⟨by decide +kernel, fun () => by decide +kernel⟩ hmark () () with ⟨n, n', _, _, _, _, h⟩
  exact ⟨n, n', h⟩

end Post

end Cmpth

import Cmpth.Delegate.Delegator

/-!
# Who Has the Lock of a Delegator

The invariant of `Delegator`, over the abstract lock.

At any time the lock is free, or a caller has it and the consumer thread is asleep in
`consumer_sth`, or the consumer thread has it. The claim at the head of the queue has had its turn
(`Done`), or its caller is asleep and waits for it (`Pending`), and whoever has the lock knows
which of the two it is: by where it is, or by `is_executed`.

What is true of a caller depends on its own record and on little else, which `Scene` collects. A
step that changes one caller leaves the others as they were if it leaves their scene.

## Main definitions

* `History`: What the claims and the turns have to do with the callers.
* `Caller.Ok`: What is true of a caller where it is.
* `Done`, `Pending`, `Knows`: Whether the claim at the head has had its turn.
* `Mode`, `Mode.Ok`: Who has the lock, and what it may rely on.
* `Inv`: The invariant.

## Theorems

* `History.join`, `History.turn`: A claim, and a turn.
* `okAll_update`: A step of one caller leaves the others alone.
* `Mode.Ok.keep`: What whoever has the lock may rely on is kept by steps that `Keeps` describes.
* `History.claim_lt`, `History.inj`, `History.notMem`: The claims are numbered as they are made.
* `Caller.Ok.congr`, `past_update`: What a caller depends on.
* `Keeps.done`, `Keeps.pending`, `Keeps.exists_pending`, `Keeps.pending_call`, `Keeps.knows`,
  `Keeps.quiet`, `Keeps.answered`, `Keeps.unlock`, `Keeps.rest`, `Keeps.consumer`: The same for each
  thing that is relied on.
-/

namespace Cmpth

namespace Delegate

namespace Delegator

/-- What the history has of a caller that has claimed. -/
structure Past (Req : Type*) where
  claim : Nat
  ran : Bool
  asked : Option Req

/-- The callers claim one after the other, the consumer thread before them, and have their turns
    in the same order. -/
structure History {K Req : Type*} (past : K → Option (Past Req)) (order served : List K)
    (executed : List (K × Req)) (claimed : Nat) : Prop where
  count : claimed = order.length + 1
  pos : ∀ k p, past k = some p → 0 < p.claim
  claim : ∀ i k, order[i]? = some k ↔ ∃ p, past k = some p ∧ p.claim = i + 1
  ran : ∀ k p, past k = some p → (p.ran = true ↔ p.claim ≤ served.length)
  turns : served <+: order
  requests : executed = served.flatMap fun k => ((past k).bind Past.asked).toList.map (k, ·)

section

variable {K Req : Type*} {past : K → Option (Past Req)} {order served : List K}
  {executed : List (K × Req)} {n : Nat}

theorem History.claim_lt (h : History past order served executed n) {k : K} {p : Past Req}
    (hp : past k = some p) : p.claim < n := by
  have hpos := h.pos k p hp
  have hget := (h.claim (p.claim - 1) k).mpr ⟨p, hp, by omega⟩
  have hlt := (List.getElem?_eq_some_iff.mp hget).1
  have hn := h.count
  omega

/-- No two callers have one claim. -/
theorem History.inj (h : History past order served executed n) {k k' : K} {p p' : Past Req}
    (hp : past k = some p) (hp' : past k' = some p') (heq : p.claim = p'.claim) : k = k' := by
  have hpos := h.pos k p hp
  have hget := (h.claim (p.claim - 1) k).mpr ⟨p, hp, by omega⟩
  have hget' := (h.claim (p.claim - 1) k').mpr ⟨p', hp', by omega⟩
  exact Option.some.inj (hget.symm.trans hget')

theorem History.notMem (h : History past order served executed n) {k : K}
    (hp : past k = none) : k ∉ order := by
  intro hk
  rcases List.getElem?_of_mem hk with ⟨i, hi⟩
  rcases (h.claim i k).mp hi with ⟨p, hsome, _⟩
  rw [hp] at hsome
  cases hsome

variable [DecidableEq K]

/-- A caller claims. -/
theorem History.join (h : History past order served executed n) {k : K} (hp : past k = none)
    (asked : Option Req) :
    History (Function.update past k (some ⟨n, false, asked⟩)) (order ++ [k]) served executed
      (n + 1) := by
  have hn := h.count
  have hk := h.notMem hp
  have hpre := h.turns
  have hlen := hpre.length_le
  refine ⟨by simp [hn], fun k' p hp' => ?_, fun i k' => ?_, fun k' p hp' => ?_, ?_, ?_⟩
  · by_cases hkk : k' = k
    · rw [hkk, Function.update_self] at hp'
      cases hp'
      simp only [hn]
      exact Nat.succ_pos _
    · rw [Function.update_of_ne hkk] at hp'
      exact h.pos k' p hp'
  · -- The positions before the new claim, the new one, and those behind it.
    rcases Nat.lt_trichotomy i order.length with hi | hi | hi
    · rw [List.getElem?_append_left hi, h.claim i k']
      by_cases hkk : k' = k
      · rw [hkk, hp, Function.update_self]
        refine iff_of_false (by rintro ⟨_, hx, _⟩; cases hx) ?_
        rintro ⟨p, hx, hc⟩
        cases hx
        exact absurd hc (by simp only; omega)
      · rw [Function.update_of_ne hkk]
    · rw [hi, List.getElem?_concat_length]
      by_cases hkk : k' = k
      · rw [hkk, Function.update_self]
        exact iff_of_true rfl ⟨_, rfl, hn⟩
      · rw [Function.update_of_ne hkk]
        refine iff_of_false (fun hx => hkk (Option.some.inj hx).symm) fun hx => ?_
        have hget := (h.claim order.length k').mpr hx
        exact absurd (List.getElem?_eq_some_iff.mp hget).1 (Nat.lt_irrefl _)
    · rw [List.getElem?_eq_none (by rw [List.length_append]; exact hi)]
      refine iff_of_false (by simp) ?_
      rintro ⟨p, hx, hc⟩
      by_cases hkk : k' = k
      · rw [hkk, Function.update_self] at hx
        cases hx
        simp only at hc
        omega
      · rw [Function.update_of_ne hkk] at hx
        have hget := (h.claim i k').mpr ⟨p, hx, hc⟩
        have := (List.getElem?_eq_some_iff.mp hget).1
        omega
  · by_cases hkk : k' = k
    · rw [hkk, Function.update_self] at hp'
      cases hp'
      exact iff_of_false (by simp) (by simp only; omega)
    · rw [Function.update_of_ne hkk] at hp'
      exact h.ran k' p hp'
  · exact hpre.trans (List.prefix_append _ _)
  · -- Nobody has been served by joining.
    rw [h.requests]
    refine List.flatMap_congr fun k' hk' => ?_
    have hne : k' ≠ k := by
      rintro rfl
      exact hk (hpre.subset hk')
    rw [Function.update_of_ne hne]

/-- The caller that is next has its turn. -/
theorem History.turn (h : History past order served executed n) {k : K} {p : Past Req}
    (hp : past k = some p) (hc : p.claim = served.length + 1) :
    History (Function.update past k (some { p with ran := true })) order (served ++ [k])
      (executed ++ p.asked.toList.map (k, ·)) n := by
  have hget := (h.claim served.length k).mpr ⟨p, hp, hc⟩
  -- A caller is served once, since its claim is served once.
  have hnot : k ∉ served := by
    intro hk
    rcases List.getElem_of_mem hk with ⟨i, hi, hik⟩
    have hget' : order[i]? = some k := by
      rw [← hik]
      exact (List.prefix_iff_getElem?.mp h.turns) i hi
    rcases (h.claim i k).mp hget' with ⟨p', hp', hc'⟩
    rw [hp] at hp'
    cases hp'
    omega
  refine ⟨h.count, fun k' p' hp' => ?_, fun i k' => ?_, fun k' p' hp' => ?_, ?_, ?_⟩
  · by_cases hkk : k' = k
    · rw [hkk, Function.update_self] at hp'
      cases hp'
      exact h.pos k p hp
    · rw [Function.update_of_ne hkk] at hp'
      exact h.pos k' p' hp'
  · rw [h.claim i k']
    by_cases hkk : k' = k
    · rw [hkk, hp, Function.update_self]
      exact ⟨by rintro ⟨_, hx, hi⟩; cases hx; exact ⟨_, rfl, hi⟩,
        by rintro ⟨_, hx, hi⟩; cases hx; exact ⟨_, rfl, hi⟩⟩
    · rw [Function.update_of_ne hkk]
  · rw [List.length_append, List.length_singleton]
    by_cases hkk : k' = k
    · rw [hkk, Function.update_self] at hp'
      cases hp'
      exact iff_of_true rfl (Nat.le_of_eq hc)
    · rw [Function.update_of_ne hkk] at hp'
      rw [h.ran k' p' hp']
      have hne : p'.claim ≠ served.length + 1 := fun hx =>
        hkk (h.inj hp' hp (hx.trans hc.symm))
      omega
  · -- The caller that is served is the next one of the order.
    rw [List.prefix_iff_getElem?]
    intro i hi
    rw [List.length_append, List.length_singleton] at hi
    rcases Nat.lt_succ_iff_lt_or_eq.mp hi with hlt | heq
    · rw [List.getElem_append_left hlt]
      exact (List.prefix_iff_getElem?.mp h.turns) i hlt
    · subst heq
      rw [List.getElem_concat_length rfl]
      exact hget
  · rw [h.requests, List.flatMap_append, List.flatMap_singleton, Function.update_self]
    congr 1
    refine List.flatMap_congr fun k' hk' => ?_
    have hne : k' ≠ k := by
      rintro rfl
      exact hnot hk'
    rw [Function.update_of_ne hne]

end

variable {K Req Resp : Type*}

/-- It has claimed. -/
def Pc.claimed : Pc K Resp → Bool
  | .idle | .starting => false
  | _ => true

/-- What a caller has to do with the queue: its claim, whether it has had its turn, and what it
    asked. -/
def Caller.past (c : Caller K Req Resp) : Option (Past Req) :=
  if c.pc.claimed = true then some ⟨c.claim, c.ran, c.asked⟩ else none

/-- The same, of all callers. -/
def State.past (s : State K Req Resp) (k : K) : Option (Past Req) :=
  (s.caller k).past

/-- What a caller's state depends on beside its record: the links, the nodes, who has the lock,
    whose token has been taken and who is about to be woken. -/
structure Scene (K : Type*) where
  linked : Nat → Bool
  node : Nat → Option K
  holder : Option K
  taken : Option K
  wakes : Option K

/-- Its turn has not come. -/
def Caller.Fresh (c : Caller K Req Resp) : Prop :=
  c.ran = false ∧ c.kept = .nothing ∧ c.value = none

/-- The consumer has it, completed or not. -/
def Caller.Deferred (c : Caller K Req Resp) : Prop :=
  c.kept = .deferred ∨ c.kept = .completed ∧ c.given ≠ none ∧ c.out = c.given

/-- The call has been answered for good, and its response is at hand. -/
def Caller.Final (c : Caller K Req Resp) : Prop :=
  c.ran = true ∧ c.kept = .nothing ∧
    (c.asked ≠ none → c.given ≠ none ∧ (c.value = c.given ∨ c.value = none ∧ c.out = c.given))

/-- What is true of a caller where it is. -/
def Caller.Ok (c : Caller K Req Resp) (k : K) (e : Scene K) : Prop :=
  match c.pc with
  | .idle | .starting => c.Fresh ∧ c.sth = false
  | .waiting i => c.Fresh ∧ c.sth = false ∧ c.claim = i ∧ e.linked i = false
  | .linking i => c.Fresh ∧ c.sth = true ∧ c.claim = i ∧ e.linked i = false ∧ e.node i = some k
  | .asleep =>
      (c.sth = true ↔ e.taken ≠ some k) ∧
        (c.Fresh ∧ e.linked c.claim = true ∧ e.node c.claim = some k ∨
          c.ran = true ∧ c.asked ≠ none ∧ c.value = none ∧ e.taken ≠ some k ∧
            (c.Deferred ∨ c.kept = .nothing ∧ e.wakes = some k))
  | .executing => c.Fresh ∧ c.sth = false ∧ c.asked ≠ none ∧ e.holder = some k
  | .inside => c.Fresh ∧ c.sth = false ∧ c.asked = none ∧ e.holder = some k
  | .unlocking _ => c.Final ∧ c.sth = false ∧ e.holder = some k
  | .resting _ =>
      c.ran = true ∧ c.asked ≠ none ∧ c.value = none ∧ c.Deferred ∧ c.sth = false ∧
        e.holder = some k
  | .returning => c.Final ∧ c.sth = false
  | .returned v => c.Final ∧ c.sth = false ∧ v = c.response

/-- The scene is the same for the caller. -/
def Scene.Agrees (e e' : Scene K) (k : K) (c : Caller K Req Resp) : Prop :=
  (c.pc.claimed = true → e'.linked c.claim = e.linked c.claim ∧
    e'.node c.claim = e.node c.claim) ∧
  (e'.holder = some k ↔ e.holder = some k) ∧ (e'.taken = some k ↔ e.taken = some k) ∧
    (e'.wakes = some k ↔ e.wakes = some k)

theorem Caller.Ok.congr {c : Caller K Req Resp} {k : K} {e e' : Scene K} (h : c.Ok k e)
    (he : e.Agrees e' k c) : c.Ok k e' := by
  rcases he with ⟨hclaim, hholder, htaken, hwakes⟩
  unfold Caller.Ok at h ⊢
  -- Each place reads only those entries of the scene that the hypotheses keep.
  split at h
  case h_1 | h_2 | h_10 | h_11 => exact h
  case h_3 i hpc =>
    rcases h with ⟨hf, hs, hc, hl⟩
    rw [hpc] at hclaim
    refine ⟨hf, hs, hc, ?_⟩
    rw [← hc, (hclaim rfl).1, hc]
    exact hl
  case h_4 i hpc =>
    rcases h with ⟨hf, hs, hc, hl, hn⟩
    rw [hpc] at hclaim
    refine ⟨hf, hs, hc, ?_, ?_⟩
    · rw [← hc, (hclaim rfl).1, hc]
      exact hl
    · rw [← hc, (hclaim rfl).2, hc]
      exact hn
  case h_5 hpc =>
    rw [hpc] at hclaim
    rw [ne_eq, htaken, (hclaim rfl).1, (hclaim rfl).2, hwakes]
    exact h
  case h_6 | h_7 | h_8 | h_9 =>
    rw [hholder]
    exact h

variable [DecidableEq K]

/-- A step of one caller leaves the others alone. -/
theorem okAll_update {f : K → Caller K Req Resp} {e e' : Scene K} (h : ∀ k, (f k).Ok k e) {k : K}
    {c : Caller K Req Resp} (hk : c.Ok k e') (he : ∀ k', k' ≠ k → e.Agrees e' k' (f k')) (k' : K) :
    (Function.update f k c k').Ok k' e' := by
  by_cases hkk : k' = k
  · rw [hkk, Function.update_self]
    exact hk
  · rw [Function.update_of_ne hkk]
    exact (h k').congr (he k' hkk)

theorem past_update {f : K → Caller K Req Resp} {k : K} {c : Caller K Req Resp} :
    (fun k' => (Function.update f k c k').past) =
      Function.update (fun k' => (f k').past) k c.past := by
  funext k'
  by_cases hkk : k' = k
  · rw [hkk, Function.update_self, Function.update_self]
  · rw [Function.update_of_ne hkk, Function.update_of_ne hkk]

section

omit [DecidableEq K]

/-- The head has had its turn. -/
def Done (s : State K Req Resp) (q : LockQueue) : Prop :=
  s.served.length = q.served

/-- The head is that of a caller that is asleep and waits for its turn. -/
def Pending (s : State K Req Resp) (q : LockQueue) (j : K) : Prop :=
  s.node q.served = some j ∧ (s.caller j).pc = .asleep ∧ (s.caller j).ran = false ∧
    (s.caller j).claim = q.served ∧ s.served.length + 1 = q.served

/-- `is_executed` says which of the two it is. -/
def Knows (s : State K Req Resp) (q : LockQueue) : Prop :=
  s.isExecuted = true ∧ Done s q ∨ s.isExecuted = false ∧ ∃ j, Pending s q j

/-- The consumer has no call. -/
def Quiet (s : State K Req Resp) : Prop :=
  ∀ k, (s.caller k).kept = .nothing

/-- The caller is asleep, with an answer for good. -/
def Answered (s : State K Req Resp) (k : K) : Prop :=
  (s.caller k).pc = .asleep ∧ (s.caller k).ran = true ∧ (s.caller k).kept = .nothing

/-- What the holder may rely on as it unlocks. -/
def Unlock.Ok (s : State K Req Resp) (q : LockQueue) : Unlock → Prop
  | .asking => Done s q
  | .releasing => Done s q ∧ s.isExecuted = true ∧ Quiet s
  | .following => Done s q ∧ s.isExecuted = true
  | .handing i => i = q.served ∧ s.isExecuted = false ∧ ∃ j, Pending s q j
  | .passing i => i = q.served ∧ ∃ j, Pending s q j ∧ (s.caller j).asked = none
  | .waking => Knows s q

/-- A caller whose call is deferred finds the consumer active. -/
def Rest.Ok (s : State K Req Resp) (q : LockQueue) : Rest K → Prop
  | .asking => Done s q
  | .suspending | .releasing | .cancelling => False
  | .following => Done s q ∧ s.isExecuted = true
  | .handing i => i = q.served ∧ s.isExecuted = false ∧ ∃ j, Pending s q j
  | .passing i => i = q.served ∧ ∃ j, Pending s q j ∧ (s.caller j).asked = none
  | .waking | .parking none => Knows s q
  | .parking (some j) => Pending s q j ∧ (s.caller j).asked = none

/-- What a caller that has the lock may rely on. -/
def Pc.Ok (s : State K Req Resp) (q : LockQueue) (claim : Nat) : Pc K Resp → Prop
  | .executing | .inside => claim = q.served ∧ s.served.length + 1 = q.served
  | .unlocking stage => stage.Ok s q
  | .resting stage => stage.Ok s q
  | .idle | .starting | .waiting _ | .linking _ | .asleep | .returning | .returned _ => False

/-- What the consumer thread may rely on when it has the lock. -/
def Consumer.Ok (s : State K Req Resp) (q : LockQueue) : Consumer K Resp → Prop
  | .starting | .parked => False
  | .top => Knows s q
  | .following | .asking true | .progressing => Done s q
  | .asking false => ∃ j, Pending s q j
  | .executing => ∃ j, Pending s q j ∧ (s.caller j).asked ≠ none
  | .swapping => ∃ j, Pending s q j ∧ (s.caller j).asked = none
  | .parking j => Pending s q j ∧ (s.caller j).asked = none
  | .finishing k v =>
      Done s q ∧ s.isExecuted = true ∧ Answered s k ∧ (s.caller k).given = some v
  | .checking awake =>
      Done s q ∧ ∀ k, awake = some k → Answered s k ∧ (s.caller k).given ≠ none ∧
        (s.caller k).out = (s.caller k).given
  | .waking k suspends =>
      Done s q ∧ s.isExecuted = true ∧ (Answered s k ∧ (s.caller k).given ≠ none ∧
        (s.caller k).out = (s.caller k).given) ∧ (suspends = true → Quiet s)
  | .suspending | .releasing | .cancelling => Done s q ∧ s.isExecuted = true ∧ Quiet s

/-- The consumer thread's token is in its slot. -/
def Consumer.sits : Consumer K Resp → Bool
  | .releasing | .cancelling | .parked => true
  | _ => false

/-- The consumer thread is about to wake the caller. -/
def Consumer.wakes : Consumer K Resp → Option K
  | .finishing k _ | .waking k _ => some k
  | .checking awake => awake
  | _ => none

/-- It has taken the caller's token, to go to sleep itself. -/
def Consumer.takes : Consumer K Resp → Option K
  | .parking k => some k
  | _ => none

/-- Whom a holder that rests has taken out of its slot. -/
def Pc.takes : Pc K Resp → Option K
  | .resting (.parking next) => next
  | _ => none

/-- Who has the lock. -/
inductive Mode (K : Type*) where
  | free
  | caller (k : K)
  | thread

/-- The caller that has the lock. -/
def Mode.holder : Mode K → Option K
  | .caller k => some k
  | .free | .thread => none

/-- Who has been taken out of a slot, and not been woken. -/
def Mode.taken (s : State K Req Resp) : Mode K → Option K
  | .free => none
  | .caller k => (s.caller k).pc.takes
  | .thread => s.consumer.takes

/-- What a caller depends on outside itself. -/
def Mode.scene (s : State K Req Resp) (q : LockQueue) (m : Mode K) : Scene K where
  linked := q.linked
  node := s.node
  holder := m.holder
  taken := m.taken s
  wakes := s.consumer.wakes

/-- Whoever has the lock may rely on this. When nobody has it, nobody waits and the consumer has
    no call. -/
def Mode.Ok (s : State K Req Resp) (q : LockQueue) : Mode K → Prop
  | .free =>
      q.served = q.claimed ∧ s.served.length + 1 = q.claimed ∧ s.consumer = .parked ∧
        s.consumerSth = true ∧ Quiet s
  | .caller k =>
      q.served < q.claimed ∧ s.head = q.served ∧ s.consumer = .parked ∧
        (s.consumerSth = true ↔ (s.caller k).pc ≠ .resting (.parking none)) ∧
        (s.caller k).pc.Ok s q (s.caller k).claim
  | .thread =>
      q.served < q.claimed ∧ s.head = q.served ∧ s.consumerSth = s.consumer.sits ∧
        s.consumer.Ok s q

/-- What every step keeps, for a lock `q` whose holder is `m`. -/
structure Inv (s : State K Req Resp) (q : LockQueue) (m : Mode K) : Prop where
  lock : q.Ok
  history : History s.past s.order s.served s.executed q.claimed
  callers : ∀ k, (s.caller k).Ok k (m.scene s q)
  mode : m.Ok s q
  intact : s.broken = false

/-- Nothing that counts for whoever has the lock is changed: the head is still that caller's, and
    those that are asleep or have the lock are where they were. A call may be completed. -/
structure Keeps (s s' : State K Req Resp) (q q' : LockQueue) : Prop where
  served : s'.served = s.served
  isExecuted : s'.isExecuted = s.isExecuted
  head : q'.served = q.served
  node : ∀ j, s.node q.served = some j → s'.node q.served = some j
  caller : ∀ k, (s.caller k).pc = .asleep ∨ (s.caller k).pc.Holds →
    (s'.caller k).pc = (s.caller k).pc ∧ (s'.caller k).asked = (s.caller k).asked ∧
      (s'.caller k).ran = (s.caller k).ran ∧ (s'.caller k).claim = (s.caller k).claim
  kept : ∀ k, (s.caller k).kept = .nothing → (s'.caller k).kept = .nothing ∧
    (s'.caller k).given = (s.caller k).given ∧ (s'.caller k).out = (s.caller k).out

variable {s s' : State K Req Resp} {q q' : LockQueue} {m : Mode K} {k j : K}

theorem Keeps.done (h : Keeps s s' q q') (hd : Done s q) : Done s' q' := by
  unfold Done
  rw [h.served, h.head]
  exact hd

theorem Keeps.pending (h : Keeps s s' q q') (hj : Pending s q j) :
    Pending s' q' j ∧ (s'.caller j).asked = (s.caller j).asked := by
  rcases hj with ⟨hnode, hpc, hran, hclaim, hlen⟩
  rcases h.caller j (.inl hpc) with ⟨hpc', hasked', hran', hclaim'⟩
  refine ⟨⟨?_, hpc'.trans hpc, hran'.trans hran, ?_, ?_⟩, hasked'⟩
  · rw [h.head]
    exact h.node j hnode
  · rw [hclaim', h.head]
    exact hclaim
  · rw [h.served, h.head]
    exact hlen

theorem Keeps.exists_pending (h : Keeps s s' q q') (hj : ∃ j, Pending s q j) :
    ∃ j, Pending s' q' j := by
  rcases hj with ⟨j, hj⟩
  exact ⟨j, (h.pending hj).1⟩

theorem Keeps.pending_call (h : Keeps s s' q q') {P : Option Req → Prop}
    (hj : ∃ j, Pending s q j ∧ P (s.caller j).asked) :
    ∃ j, Pending s' q' j ∧ P (s'.caller j).asked := by
  rcases hj with ⟨j, hj, hP⟩
  rcases h.pending hj with ⟨hj', hasked⟩
  rw [← hasked] at hP
  exact ⟨j, hj', hP⟩

theorem Keeps.knows (h : Keeps s s' q q') (hk : Knows s q) : Knows s' q' := by
  unfold Knows
  rw [h.isExecuted]
  rcases hk with ⟨he, hd⟩ | ⟨he, hj⟩
  · exact .inl ⟨he, h.done hd⟩
  · exact .inr ⟨he, h.exists_pending hj⟩

theorem Keeps.quiet (h : Keeps s s' q q') (hk : Quiet s) : Quiet s' :=
  fun k => (h.kept k (hk k)).1

theorem Keeps.answered (h : Keeps s s' q q') (hk : Answered s k) :
    Answered s' k ∧ (s'.caller k).given = (s.caller k).given ∧
      (s'.caller k).out = (s.caller k).out := by
  rcases hk with ⟨hpc, hran, hkept⟩
  rcases h.caller k (.inl hpc) with ⟨hpc', _, hran', _⟩
  rcases h.kept k hkept with ⟨hkept', hgiven, hout⟩
  exact ⟨⟨hpc'.trans hpc, hran'.trans hran, hkept'⟩, hgiven, hout⟩

theorem Keeps.unlock (h : Keeps s s' q q') {stage : Unlock} (hs : stage.Ok s q) :
    stage.Ok s' q' := by
  cases stage with
  | asking => exact h.done hs
  | releasing => exact ⟨h.done hs.1, h.isExecuted.trans hs.2.1, h.quiet hs.2.2⟩
  | following => exact ⟨h.done hs.1, h.isExecuted.trans hs.2⟩
  | handing i =>
      exact ⟨hs.1.trans h.head.symm, h.isExecuted.trans hs.2.1, h.exists_pending hs.2.2⟩
  | passing i => exact ⟨hs.1.trans h.head.symm, h.pending_call (P := fun r => r = none) hs.2⟩
  | waking => exact h.knows hs

theorem Keeps.rest (h : Keeps s s' q q') {stage : Rest K} (hs : stage.Ok s q) :
    stage.Ok s' q' := by
  cases stage with
  | asking => exact h.done hs
  | suspending | releasing | cancelling => exact hs
  | following => exact ⟨h.done hs.1, h.isExecuted.trans hs.2⟩
  | handing i =>
      exact ⟨hs.1.trans h.head.symm, h.isExecuted.trans hs.2.1, h.exists_pending hs.2.2⟩
  | passing i => exact ⟨hs.1.trans h.head.symm, h.pending_call (P := fun r => r = none) hs.2⟩
  | waking => exact h.knows hs
  | parking next =>
      cases next with
      | none => exact h.knows hs
      | some j =>
          rcases h.pending hs.1 with ⟨hj, hasked⟩
          exact ⟨hj, hasked.trans hs.2⟩

theorem Keeps.consumer (h : Keeps s s' q q') {pc : Consumer K Resp} (hs : pc.Ok s q) :
    pc.Ok s' q' := by
  have hwoken : ∀ k, Answered s k ∧ (s.caller k).given ≠ none ∧
      (s.caller k).out = (s.caller k).given → Answered s' k ∧ (s'.caller k).given ≠ none ∧
        (s'.caller k).out = (s'.caller k).given := by
    rintro k ⟨hk, hgiven, hout⟩
    rcases h.answered hk with ⟨hk', hgiven', hout'⟩
    rw [hgiven', hout']
    exact ⟨hk', hgiven, hout⟩
  -- What the consumer thread relies on is a fact about the turn, about one caller or about the
  -- whole queue.
  cases pc with
  | starting | parked => exact hs
  | top => exact h.knows hs
  | following | progressing => exact h.done hs
  | asking isExecuted =>
      cases isExecuted with
      | true => exact h.done hs
      | false => exact h.exists_pending hs
  | executing => exact h.pending_call (P := fun r => r ≠ none) hs
  | swapping => exact h.pending_call (P := fun r => r = none) hs
  | parking j =>
      rcases h.pending hs.1 with ⟨hj, hasked⟩
      exact ⟨hj, hasked.trans hs.2⟩
  | finishing k v =>
      rcases h.answered hs.2.2.1 with ⟨hk', hgiven, _⟩
      exact ⟨h.done hs.1, h.isExecuted.trans hs.2.1, hk', hgiven.trans hs.2.2.2⟩
  | checking awake => exact ⟨h.done hs.1, fun k hk => hwoken k (hs.2 k hk)⟩
  | waking k suspends =>
      exact ⟨h.done hs.1, h.isExecuted.trans hs.2.1, hwoken k hs.2.2.1,
        fun hx => h.quiet (hs.2.2.2 hx)⟩
  | suspending | releasing | cancelling =>
      exact ⟨h.done hs.1, h.isExecuted.trans hs.2.1, h.quiet hs.2.2⟩

/-- Whoever has the lock may rely on the same as before. -/
theorem Mode.Ok.keep (h : m.Ok s q) (hk : Keeps s s' q q') (hhead : s'.head = s.head)
    (hconsumer : s'.consumer = s.consumer) (hsth : s'.consumerSth = s.consumerSth)
    (hle : q.claimed ≤ q'.claimed) (hfree : m = .free → q'.claimed = q.claimed) :
    m.Ok s' q' := by
  -- While the lock is free nobody may have joined; a holder only needs that the queue does not
  -- shrink.
  cases m with
  | free =>
      rcases h with ⟨hserved, hlen, hparked, hset, hquiet⟩
      refine ⟨?_, ?_, hconsumer.trans hparked, hsth.trans hset, hk.quiet hquiet⟩
      · rw [hk.head, hfree rfl, hserved]
      · rw [hk.served, hfree rfl, hlen]
  | caller k =>
      rcases h with ⟨hlt, hat, hparked, hset, hok⟩
      have hholds : (s.caller k).pc.Holds := by
        cases hpc : (s.caller k).pc <;> rw [hpc] at hok
        case executing | inside | unlocking | resting => trivial
        all_goals exact hok.elim
      rcases hk.caller k (.inr hholds) with ⟨hpc, _, _, hclaim⟩
      refine ⟨?_, ?_, hconsumer.trans hparked, ?_, ?_⟩
      · rw [hk.head]
        exact Nat.lt_of_lt_of_le hlt hle
      · rw [hhead, hk.head, hat]
      · rw [hsth, hpc, hset]
      · rw [hpc, hclaim]
        cases hpc' : (s.caller k).pc <;> rw [hpc'] at hok
        case executing | inside =>
          change _ = q'.served ∧ s'.served.length + 1 = q'.served
          rw [hk.head, hk.served]
          exact hok
        case unlocking stage => exact hk.unlock hok
        case resting stage => exact hk.rest hok
        all_goals exact hok
  | thread =>
      rcases h with ⟨hlt, hat, hset, hok⟩
      refine ⟨?_, ?_, ?_, ?_⟩
      · rw [hk.head]
        exact Nat.lt_of_lt_of_le hlt hle
      · rw [hhead, hk.head, hat]
      · rw [hsth, hconsumer, hset]
      · rw [hconsumer]
        exact hk.consumer hok

end

end Delegator

end Delegate

end Cmpth

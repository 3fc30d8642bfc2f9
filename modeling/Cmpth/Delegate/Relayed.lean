import Cmpth.Delegate.Delegated

/-!
# The Calls of a Delegator

What becomes of the calls, in the terms of the queue that the delegator runs over.

`Contract` speaks of an abstract lock that the queue represents. A caller knows nothing of it: what
it sees is whether its request was executed, and in whose turn, and what came back. And the queue
has a lock word of its own: the linked queue is free while it has no tail, and the ring while the
low bit of its tail is set. `Relays` says what holds of the calls and of that word.

That each request is executed once is counted in the record of what the consumer was given, in which
each caller's entries are those of its own call.

## Main definitions

* `Relays`: What a delegator does with its calls.

## Theorems

* `filter_requests`, `map_fst_requests`: What a list of turns executes.
* `Stays.holds`, `Stays.released`, `Stays.cancels`: Who has the lock, in every state.
* `Stays.relays`: What is kept says what becomes of the calls.
* `mcs_free_iff`, `ring_free_iff`: When the two queues are free.
* `pc_init`, `exists_eq_iff`: Where a caller is at the start, and where a caller of the ring is.
* `calls_relayed`: What becomes of the calls, over the linked queue and over the ring of any size.
* `calls_relayed_ring`: Of a call and a locked section, over a ring of two slots.
-/

namespace Cmpth

namespace Delegate

namespace Delegator

variable {K Req Resp : Type*} [DecidableEq K] {s : State K Req Resp} {q : LockQueue} {k : K}

/-- What a delegator does with its calls. `free` says that the lock of its queue is free. -/
structure Relays (s : State K Req Resp) (free : Prop) : Prop where
  /-- One thread at a time can go on to use the consumer. -/
  exclusive : ∀ a b u v, guard s a → guard s b → uses s a = some u → uses s b = some v → u = v
  /-- Nobody claims twice, and the turns and the executions come in the order of the claims. -/
  ordered : s.order.Nodup ∧ s.served <+: s.order ∧ (s.executed.map Prod.fst).Sublist s.order
  /-- Whose turn has come has had its own request executed, once; nobody else has. -/
  executed : ∀ k, (s.executed.filter fun e => e.1 = k) =
    if k ∈ s.served then (s.caller k).asked.toList.map (k, ·) else []
  /-- Who returns has had its turn, the consumer keeps nothing of its call any more, and it has
      what the consumer answered to it. -/
  returned : ∀ k v, (s.caller k).pc = .returned v →
    k ∈ s.served ∧ (s.caller k).kept = .nothing ∧ ((s.caller k).asked = none → v = none) ∧
      ((s.caller k).asked ≠ none → v ≠ none ∧ v = (s.caller k).given)
  /-- It does not return again. -/
  once : ∀ k v a r, (s.caller k).pc = .returned v → guard s a → (next s r a).caller k = s.caller k
  /-- A caller that has the lock is the only one, and the consumer thread is parked in its slot
      up to the moment at which the caller goes to sleep in its place. -/
  holder : ∀ k, (s.caller k).pc.Holds → ¬ free ∧ (∀ j, (s.caller j).pc.Holds → j = k) ∧
    s.consumer = .parked ∧ (s.consumerSth = true ∨ (s.caller k).pc = .resting (.parking none))
  /-- No token was looked for in an empty slot. -/
  intact : s.broken = false
  /-- While the consumer thread may take its own token back nobody else can take it, and a caller
      never takes back its own. -/
  cancels : (s.consumer = .releasing ∨ s.consumer = .cancelling →
      s.consumerSth = true ∧ ∀ k, ¬ (s.caller k).pc.Holds) ∧
    ∀ k, (s.caller k).pc ≠ .resting .releasing ∧ (s.caller k).pc ≠ .resting .cancelling
  /-- While the lock is free the consumer thread is parked, once it has run; nobody waits, every
      claim has had its turn, and the consumer keeps no call. -/
  free : free → (s.consumer = .starting ∨ s.consumer = .parked ∧ s.consumerSth = true) ∧
    s.served = s.order ∧ ∀ k, (s.caller k).kept = .nothing ∧ (s.caller k).pc ≠ .asleep ∧
      ∀ i, (s.caller k).pc ≠ .waiting i ∧ (s.caller k).pc ≠ .linking i
  /-- While anybody sleeps a caller has the lock, or the consumer thread is awake. -/
  awake : ∀ k, (s.caller k).pc = .asleep →
    (∃ j, (s.caller j).pc.Holds) ∨ s.consumer ≠ .parked

section

variable {l : List K} {f : K → Option Req}

/-- Of what a list of turns executes, each caller's part is its own request. -/
theorem filter_requests (hl : l.Nodup) (k : K) :
    ((l.flatMap fun j => (f j).toList.map (j, ·)).filter fun e => e.1 = k) =
      if k ∈ l then (f k).toList.map (k, ·) else [] := by
  induction l with
  | nil => rfl
  | cons j l ih =>
      rcases List.nodup_cons.mp hl with ⟨hj, hl⟩
      rw [List.flatMap_cons, List.filter_append, ih hl]
      by_cases hjk : j = k
      · -- Its own turn; it has no other.
        subst hjk
        have hown : (((f j).toList.map (j, ·)).filter fun e => e.1 = j) =
            (f j).toList.map (j, ·) := by
          refine List.filter_eq_self.mpr fun e he => ?_
          rcases List.mem_map.mp he with ⟨_, _, rfl⟩
          exact decide_eq_true rfl
        rw [hown, if_neg hj, if_pos List.mem_cons_self, List.append_nil]
      · have hother : (((f j).toList.map (j, ·)).filter fun e => e.1 = k) = [] := by
          refine List.filter_eq_nil_iff.mpr fun e he => ?_
          rcases List.mem_map.mp he with ⟨_, _, rfl⟩
          simpa using hjk
        rw [hother, List.nil_append]
        simp only [List.mem_cons, Ne.symm hjk, false_or]

omit [DecidableEq K] in
/-- A list of turns executes its requests in its order. -/
theorem map_fst_requests :
    ((l.flatMap fun j => (f j).toList.map (j, ·)).map Prod.fst).Sublist l := by
  induction l with
  | nil => exact List.Sublist.refl _
  | cons j l ih =>
      rw [List.flatMap_cons, List.map_append]
      -- A locked section executes nothing.
      cases f j with
      | none => exact ih.cons j
      | some r => exact ih.cons_cons j

end

section

omit [DecidableEq K]

theorem pc_init (hi : init s) : (s.caller k).pc = .idle :=
  (hi.2.2.2.2.2.2.2.2 k).2.2.2.2.2

/-- Whoever holds the lock is alone, and it is not free. -/
theorem Stays.holds (h : Stays s q) (hk : (s.caller k).pc.Holds) :
    q.served < q.claimed ∧ ∀ j, (s.caller j).pc.Holds → j = k := by
  rcases h with ⟨hi, rfl⟩ | ⟨m, h⟩
  -- Before the consumer thread has run nobody has called.
  · rw [pc_init hi] at hk
    exact hk.elim
  · cases h.holds hk
    refine ⟨h.mode.1, fun j hj => ?_⟩
    cases h.holds hj
    rfl

/-- While the lock is free the consumer thread is parked, once it has run. -/
theorem Stays.released (h : Stays s q) (hq : q.served = q.claimed) :
    s.consumer = .starting ∨ s.consumer = .parked ∧ s.consumerSth = true := by
  rcases h with ⟨hi, rfl⟩ | ⟨m, h⟩
  · exact .inl hi.2.2.1
  · cases m with
    | free => exact .inr ⟨h.mode.2.2.1, h.mode.2.2.2.1⟩
    | caller k | thread => exact absurd hq (Nat.ne_of_lt h.mode.1)

/-- As it gives the lock up, the consumer thread has it. -/
theorem Stays.cancels (h : Stays s q)
    (hc : s.consumer = .releasing ∨ s.consumer = .cancelling) :
    s.consumerSth = true ∧ ∀ k, ¬ (s.caller k).pc.Holds := by
  rcases h with ⟨hi, rfl⟩ | ⟨m, h⟩
  · rw [hi.2.2.1] at hc
    rcases hc with hc | hc <;> cases hc
  · have hparked : s.consumer ≠ .parked := by
      rcases hc with hc | hc <;> rw [hc] <;> nofun
    -- A consumer thread that is not parked has the lock, so no caller can.
    cases h.thread hparked
    refine ⟨?_, fun k hk => ?_⟩
    · rw [h.mode.2.2.1]
      rcases hc with hc | hc <;> rw [hc] <;> rfl
    · cases h.holds hk

end

/-- What is kept says what becomes of the calls. -/
theorem Stays.relays (h : Stays s q) {free : Prop} (hfree : free ↔ q.served = q.claimed) :
    Relays s free := by
  have hcontract := h.contract
  exact
    { exclusive := hcontract.exclusive
      ordered := by
        refine ⟨hcontract.nodup, hcontract.served, ?_⟩
        rw [hcontract.executed]
        exact map_fst_requests.trans hcontract.served.sublist
      executed := fun k => by
        rw [hcontract.executed]
        exact filter_requests (hcontract.nodup.sublist hcontract.served.sublist) k
      returned := hcontract.returned
      once := hcontract.once
      holder := fun k hk => by
        rcases h.holds hk with ⟨hlt, halone⟩
        rcases hcontract.parked k hk with ⟨hparked, hsth⟩
        refine ⟨fun hx => Nat.ne_of_lt hlt (hfree.mp hx), halone, hparked, ?_⟩
        cases hset : s.consumerSth with
        | true => exact .inl rfl
        | false => exact .inr (hsth hset)
      intact := hcontract.intact
      cancels := by
        refine ⟨h.cancels, fun k => ⟨fun hpc => ?_, fun hpc => ?_⟩⟩
        · exact (hcontract.active k _ hpc).2.1 rfl
        · exact (hcontract.active k _ hpc).2.2 rfl
      free := fun hx => ⟨h.released (hfree.mp hx), hcontract.free (hfree.mp hx)⟩
      awake := hcontract.awake }

/-- The linked queue is free while it has no tail, and then it has no head, and nobody is about to
    link himself. -/
theorem mcs_free_iff {E : Type*} {t : McsQueue.State E} {entry : Nat → E}
    (h : McsQueue.Rep t q entry) :
    (t.tail = none ↔ q.served = q.claimed) ∧
      (t.tail = none → t.head = none ∧ ∀ i, t.pending i = none) := by
  have hle := h.ok.served
  have hiff : t.tail = none ↔ q.served = q.claimed := by
    rw [h.tail]
    by_cases hq : q.served < q.claimed
    · rw [if_pos hq]
      exact iff_of_false nofun (Nat.ne_of_lt hq)
    · rw [if_neg hq]
      exact iff_of_true rfl (by omega)
  refine ⟨hiff, fun ht => ?_⟩
  have hq := hiff.mp ht
  -- Whoever is about to link himself has a claim that is not served.
  refine ⟨?_, fun i => ?_⟩
  · rw [h.head, if_neg (by omega)]
  · by_contra hi
    rcases h.pending i hi with ⟨hlt, hlt', _⟩
    omega

/-- The ring is free while its word says so, and then no slot is ready and no slot that was claimed
    is to be. -/
theorem ring_free_iff {C : Type*} {n : Nat} {t : RingBufQueue.State C}
    (h : RingBufQueue.Rep n t q) :
    (t.tail &&& RingBufQueue.FREE ≠ 0 ↔ q.served = q.claimed) ∧
      (t.tail &&& RingBufQueue.FREE ≠ 0 →
        (∀ i, t.ready i = false) ∧ ∀ c, (t.caller c).claim = none) := by
  have hiff := h.free_iff rfl
  refine ⟨hiff, fun ht => ?_⟩
  have hq := hiff.mp ht
  refine ⟨fun i => ?_, fun c => ?_⟩
  · by_contra hi
    rcases (h.ready i).mp (by simpa using hi) with ⟨j, _, hlt, hlt', _⟩
    omega
  · by_contra hc
    rcases Option.ne_none_iff_exists'.mp hc with ⟨idx, hidx⟩
    rcases h.claim c idx hidx with ⟨hlt, hlt', _⟩
    omega

/-- However calls, locked sections and the consumer thread interleave, over either queue: the
    consumer is used by one thread at a time, each request is executed once and in the order of the
    queue, each call returns once with its own response, a caller that has the lock finds the
    consumer thread parked, and a lock that is free leaves nothing to do. -/
theorem calls_relayed {E C : Type*} [DecidableEq E] [Inhabited E] [DecidableEq C] (n : Nat) :
    (∀ x : State K Req Resp × McsQueue.State E,
      (running McsQueue.system fun t b => some (McsQueue.op b, McsQueue.result t b)).Reachable x →
        Relays x.1 (x.2.tail = none) ∧
          (x.2.tail = none → x.2.head = none ∧ ∀ i, x.2.pending i = none)) ∧
    ∀ x : State K Req Resp × RingBufQueue.State C,
      (running (RingBufQueue.system (2 ^ n)) (RingBufQueue.label (2 ^ n))).Reachable x →
        Relays x.1 (x.2.tail &&& RingBufQueue.FREE ≠ 0) ∧
          (x.2.tail &&& RingBufQueue.FREE ≠ 0 →
            (∀ i, x.2.ready i = false) ∧ ∀ c, (x.2.caller c).claim = none) := by
  constructor
  · intro x hx
    rcases reachable_of_running McsQueue.implements hx with ⟨q, ⟨entry, hrep⟩, _, hstays⟩
    rcases mcs_free_iff hrep with ⟨hfree, hempty⟩
    exact ⟨hstays.relays hfree, hempty⟩
  · intro x hx
    rcases reachable_of_running (RingBufQueue.implements n) hx with ⟨q, hrep, _, hstays⟩
    rcases ring_free_iff hrep with ⟨hfree, hempty⟩
    exact ⟨hstays.relays hfree, hempty⟩

/-- The word or the claim that a caller of the ring has. -/
def number : RingBufQueue.CallerPc → Nat
  | .idle => 0
  | .loaded i | .checked i | .locked i | .claimed i | .filled i => i

/-- A caller has come to a place if it is there with the number that it has. -/
theorem exists_eq_iff {mk : Nat → RingBufQueue.CallerPc} (hmk : ∀ i, number (mk i) = i)
    (pc : RingBufQueue.CallerPc) : pc = mk (number pc) ↔ ∃ i, pc = mk i := by
  refine ⟨fun h => ⟨_, h⟩, ?_⟩
  rintro ⟨i, rfl⟩
  rw [hmk]

instance {C : Type*} (t : RingBufQueue.State C) : ∀ b, Decidable (RingBufQueue.guard t b)
  | .loadTail c => inferInstanceAs (Decidable (t.caller c = .idle))
  | .loadHead c => decidable_of_iff _ (exists_eq_iff (fun _ => rfl) (t.caller c))
  | .exchange c _ => decidable_of_iff _ (exists_eq_iff (fun _ => rfl) (t.caller c))
  | .storeHead c => decidable_of_iff _ (exists_eq_iff (fun _ => rfl) (t.caller c))
  | .fill c => decidable_of_iff _ (exists_eq_iff (fun _ => rfl) (t.caller c))
  | .setNext c => decidable_of_iff _ (exists_eq_iff (fun _ => rfl) (t.caller c))
  | .unlock | .follow => inferInstanceAs (Decidable (t.holder = .holding))
  | .holder => inferInstanceAs (Decidable (t.holder ≠ .nobody ∧ t.holder ≠ .holding))

/-- A delegator over a ring of two slots. -/
def overRing : System (State Bool Nat Nat × RingBufQueue.State (Fin 3))
    (Joint (Action Bool Nat Nat) (RingBufQueue.Action (Fin 3))) :=
  running (RingBufQueue.system (2 ^ 1)) (RingBufQueue.label (2 ^ 1))

instance (x : State Bool Nat Nat × RingBufQueue.State (Fin 3)) : ∀ a, Decidable (overRing.guard x a)
  | .own a => inferInstanceAs (Decidable (guard x.1 a ∧ op x.1 a = none))
  | .queue b =>
      inferInstanceAs (Decidable (RingBufQueue.guard x.2 b ∧
        RingBufQueue.label (2 ^ 1) x.2 b = none))
  | .both a b =>
      inferInstanceAs (Decidable (guard x.1 a ∧ RingBufQueue.guard x.2 b ∧ (op x.1 a).isSome ∧
        (RingBufQueue.label (2 ^ 1) x.2 b).map Prod.fst = op x.1 a))

/-- A ring that nobody has claimed a slot of. -/
def ring : RingBufQueue.State (Fin 3) where
  head := 0
  tail := RingBufQueue.FREE
  ready _ := false
  node _ := none
  caller _ := .idle
  holder := .nobody

/-- A claim: the two loads and the exchange, with which the step is taken. -/
def claims (c : Fin 3) (a : Action Bool Nat Nat) :
    List (Joint (Action Bool Nat Nat) (RingBufQueue.Action (Fin 3))) :=
  [.queue (.loadTail c), .queue (.loadHead c), .both a (.exchange c false)]

/-- `try_follow_head`, which finds the next slot ready. -/
def follows (a : Action Bool Nat Nat) :
    List (Joint (Action Bool Nat Nat) (RingBufQueue.Action (Fin 3))) :=
  [.queue .follow, .queue .holder, .queue .holder, .queue .holder, .both a .holder]

/-- The consumer thread goes to sleep; a call finds the lock free and has its request executed; a
    locked section that has come behind it is handed the lock, and lets it go. -/
def handed : List (Joint (Action Bool Nat Nat) (RingBufQueue.Action (Fin 3))) :=
  claims 0 (.serve (plain false)) ++ .queue (.storeHead 0) ::
  [.own (.serve (plain false)), .queue .follow, .both (.serve (plain false)) .holder] ++
  List.replicate 3 (.own (.serve (plain false))) ++
  [.queue .unlock, .both (.serve (plain false)) .holder, .own (.call false 7)] ++
  claims 1 (.step false (plain false)) ++
  [.queue (.storeHead 1), .own (.withLock true)] ++ claims 2 (.step true (plain false)) ++
  [.own (.step true (plain false)), .queue (.fill 2), .both (.step true (plain false)) (.setNext 2),
    .own (.step false ⟨false, none, some 8⟩), .own (.step false (plain false)),
    .queue .unlock, .both (.step false (plain false)) .holder] ++
  follows (.step false (plain false)) ++
  List.replicate 3 (.own (.step false (plain false))) ++
  List.replicate 2 (.own (.step true (plain false))) ++
  [.queue .unlock, .both (.step true (plain false)) .holder, .own (.step true (plain false))]

/-- Both return, and the ring is free again. -/
theorem calls_relayed_ring :
    let x := overRing.run (.fresh, ring) handed
    (x.2.tail &&& RingBufQueue.FREE ≠ 0 ∧ x.1.order = [false, true] ∧ x.1.executed = [(false, 7)] ∧
      (x.1.caller false).pc = .returned (some 8) ∧ (x.1.caller true).pc = .returned none) ∧
      Relays x.1 (x.2.tail &&& RingBufQueue.FREE ≠ 0) := by
  refine ⟨by decide +kernel, ?_⟩
  have hinit : overRing.init (.fresh, ring) :=
    ⟨⟨rfl, rfl, rfl, rfl, rfl, rfl, rfl, rfl, fun _ => ⟨rfl, rfl, rfl, rfl, rfl, rfl⟩⟩,
      ⟨rfl, rfl, fun _ => rfl, fun _ => rfl, fun _ => rfl, rfl⟩⟩
  have hreach := overRing.reachable_run handed _ hinit (by decide +kernel)
  exact ((calls_relayed (E := Nat) 1).2 _ hreach).1

end Delegator

end Delegate

end Cmpth

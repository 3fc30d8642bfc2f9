import Cmpth.Join.Word

/-!
# How a Join Learns of the Exit

The reads that one `join` makes of the join word, with the memory ordering the code names for
each of them.

The exiting task writes the result and then stores `FINISHED` with release. Whoever finds
`FINISHED` and goes on to take the result has to have found it with acquire, or nothing orders
the result's write before its read. A joiner that is resumed by the exiting task is ordered by
the handoff.

What the reads return is left open, and so is which compare-exchanges fail, by themselves or
because the word has changed. A compare-exchange that fails reads with its failure ordering; one
that succeeds has read what it expected.

## Main definitions

* `exchangeLoop`: The loop that `try_register_joiner` and `try_abandon` share.
* `tryRegisterJoiner`, `tryAbandon`, `join`: The reads, and how the call ends.
* `Acquired`: Some read has found `FINISHED` with acquire.

## Theorems

* `Acquired.cons`: One more read.
* `exchangeLoop_finished`, `joined_of_ended`: The loop that starts out knowing, and how a join ends.
* `acquired_of_found`: The loop finds out by a failing exchange, unless it starts out knowing.
* `tryAbandon_acquires`: A handle that is dropped after the exit has acquired.
* `join_acquires_iff`: A join has, unless the first load of the registration is what finds out.
* `join_relaxed`: That load is relaxed.
-/

namespace Cmpth

namespace JoinReads

open Join (Word finished)

/-- The orderings of an atomic access. -/
inductive MemoryOrdering where
  | relaxed
  | acquire
  | release
  | acqRel
  | seqCst
  deriving DecidableEq, Repr

/-- A load of this ordering sees what was released before the store that it reads. -/
def MemoryOrdering.acquires : MemoryOrdering → Bool
  | .acquire | .acqRel | .seqCst => true
  | .relaxed | .release => false

/-- A read of the join word. -/
structure Read where
  ordering : MemoryOrdering
  value : Word
  deriving DecidableEq, Repr

/-- What a `compare_exchange_weak` comes to. -/
inductive Exchange where
  | swapped
  | failed (c : Word)
  deriving DecidableEq, Repr

/-- How a loop of exchanges ends, if it does. -/
inductive Ended where
  /-- The word was `FINISHED`. -/
  | found
  | swapped
  | unfinished
  deriving DecidableEq, Repr

/-- How a `join` ends, if it does. -/
inductive Joined where
  /-- In `take_result`, at once. -/
  | taken
  /-- In `take_result`, after the exiting task has resumed the caller. -/
  | resumed
  | unfinished
  deriving DecidableEq, Repr

/-- Exchange the word, unless it says `FINISHED`; start over when the exchange fails. -/
def exchangeLoop (success failure : MemoryOrdering) (cur : Word) (xs : List Exchange) :
    List Read × Ended :=
  if cur = finished then ([], .found)
  else
    match xs with
    | [] => ([], .unfinished)
    | .swapped :: _ => ([⟨success, cur⟩], .swapped)
    | .failed c :: rest =>
        let (reads, e) := exchangeLoop success failure c rest
        (⟨failure, c⟩ :: reads, e)

/-- `try_register_joiner`, where the first load returns `v`. -/
def tryRegisterJoiner (v : Word) (xs : List Exchange) : List Read × Ended :=
  let (reads, e) := exchangeLoop .release .acquire v xs
  (⟨.relaxed, v⟩ :: reads, e)

/-- `try_abandon`, where the first load returns `v`. -/
def tryAbandon (v : Word) (xs : List Exchange) : List Read × Ended :=
  let (reads, e) := exchangeLoop .acqRel .acquire v xs
  (⟨.acquire, v⟩ :: reads, e)

/-- `JoinHandle::join`, where `is_finished` loads `v₀` and the registration starts from `v₁`. -/
def join (v₀ v₁ : Word) (xs : List Exchange) : List Read × Joined :=
  if v₀ = finished then ([⟨.acquire, v₀⟩], .taken)
  else
    let (reads, e) := tryRegisterJoiner v₁ xs
    (⟨.acquire, v₀⟩ :: reads,
      match e with
      | .found => .taken
      | .swapped => .resumed
      | .unfinished => .unfinished)

/-- Some read has found `FINISHED` with acquire. -/
def Acquired (reads : List Read) : Prop :=
  ∃ r ∈ reads, r.value = finished ∧ r.ordering.acquires = true

theorem Acquired.cons {reads : List Read} (h : Acquired reads) (r : Read) :
    Acquired (r :: reads) := by
  rcases h with ⟨x, hx, hr⟩
  exact ⟨x, List.mem_cons_of_mem r hx, hr⟩

theorem exchangeLoop_finished (success failure : MemoryOrdering) (xs : List Exchange) :
    exchangeLoop success failure finished xs = ([], .found) := by
  unfold exchangeLoop
  rw [if_pos rfl]

/-- A loop that does not start out knowing learns of the exit from an exchange that fails. -/
theorem acquired_of_found {success failure : MemoryOrdering} (hf : failure.acquires = true)
    (xs : List Exchange) : ∀ cur, cur ≠ finished →
      (exchangeLoop success failure cur xs).2 = .found →
      Acquired (exchangeLoop success failure cur xs).1 := by
  -- By induction on the reads: the last of them, or a later one.
  induction xs with
  | nil =>
      intro cur hcur h
      unfold exchangeLoop at h
      rw [if_neg hcur] at h
      cases h
  | cons x rest ih =>
      intro cur hcur h
      unfold exchangeLoop at h ⊢
      rw [if_neg hcur] at h ⊢
      cases x with
      | swapped => cases h
      | failed c =>
          by_cases hc : c = finished
          · exact ⟨⟨failure, c⟩, List.mem_cons_self, hc, hf⟩
          · exact (ih c hc h).cons _

/-- Whoever drops a handle after the exit, and with it the result, has acquired. -/
theorem tryAbandon_acquires (v : Word) (xs : List Exchange)
    (h : (tryAbandon v xs).2 = .found) : Acquired (tryAbandon v xs).1 := by
  by_cases hv : v = finished
  · exact ⟨⟨.acquire, v⟩, List.mem_cons_self, hv, rfl⟩
  · exact (acquired_of_found rfl xs v hv h).cons _

theorem joined_of_ended {e : Ended}
    (h : (match e with
      | .found => Joined.taken
      | .swapped => .resumed
      | .unfinished => .unfinished) = .taken) : e = .found := by
  cases e with
  | found => rfl
  | swapped | unfinished => cases h

/-- A join that takes the result without having been resumed has acquired, whatever its reads
    return, if and only if the fast path finds `FINISHED` or the first load of the registration
    does not. -/
theorem join_acquires_iff (v₀ v₁ : Word) (xs : List Exchange) :
    ((join v₀ v₁ xs).2 = .taken → Acquired (join v₀ v₁ xs).1) ↔
      v₀ = finished ∨ v₁ ≠ finished := by
  by_cases h₀ : v₀ = finished
  · refine ⟨fun _ => .inl h₀, fun _ _ => ?_⟩
    unfold join
    rw [if_pos h₀]
    exact ⟨⟨.acquire, v₀⟩, List.mem_cons_self, h₀, rfl⟩
  · unfold join tryRegisterJoiner
    rw [if_neg h₀]
    constructor
    · -- A registration that starts from `FINISHED` makes no other read.
      intro h
      refine .inr fun h₁ => ?_
      subst h₁
      rw [exchangeLoop_finished] at h
      rcases h rfl with ⟨r, hr, hv, ho⟩
      rcases List.mem_cons.mp hr with rfl | hr
      · exact h₀ hv
      · rcases List.mem_singleton.mp hr with rfl
        cases ho
    · rintro (h | h₁) ht
      · exact absurd h h₀
      · exact ((acquired_of_found rfl xs v₁ h₁ (joined_of_ended ht)).cons _).cons _

/-- The task exits between the two loads. -/
theorem join_relaxed :
    (join Join.running finished []).2 = .taken ∧
      (join Join.running finished []).1 = [⟨.acquire, Join.running⟩, ⟨.relaxed, finished⟩] ∧
      ¬ Acquired (join Join.running finished []).1 := by
  refine ⟨by decide, by decide, ?_⟩
  rintro ⟨r, hr, hv, ho⟩
  rcases List.mem_cons.mp hr with rfl | hr
  · exact absurd hv (by decide)
  · rcases List.mem_singleton.mp hr with rfl
    cases ho

end JoinReads

end Cmpth

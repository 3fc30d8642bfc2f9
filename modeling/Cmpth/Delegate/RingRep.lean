import Cmpth.Delegate.Mcs
import Cmpth.Delegate.Ring

/-!
# `RingBufQueue` Is a Lock With a Queue

The claims are numbered as the code numbers them, and claims that are out at
once are less than a turn of the ring apart. A slot is therefore written by the
caller of one claim at a time, until the holder has moved past that claim.

## Main definitions

* `word`: What `tail` holds.
* `Rep`: The queue is the abstract one.

## Theorems

* `word_shift`, `word_and`, `word_or`, `word_inj`, `shift_eq`: The counter and the flag in a word.
* `mask_eq`, `mask_inj`, `slot_inj`: Claims that are out at once have different slots.
* `clears_of_idle`, `free_iff`, `shift_tail`: The tail of a lock, free or held.
* `rep_init`: An empty ring is a new queue.
* `rep_setCaller`, `rep_checkFull`: A caller goes on without a claim.
* `rep_claim`, `rep_lock`, `rep_storeHead`: The exchange of a caller that finds the lock taken, or
  free, and becomes the holder.
* `rep_fill`, `rep_setNext`: A caller fills in its slot and marks it ready.
* `Rep.not_locked`, `rep_holder`: While somebody holds the lock nobody else is about to, and it goes
  on without a write.
* `Rep.unlocks_iff`, `rep_unlock`: The exchange of `try_unlock`, which succeeds exactly when nobody
  waits.
* `Rep.ready_next`, `rep_clear`, `rep_reset`, `rep_advance`: The holder gives the lock to its
  successor.
* `rep_holderStep`: The next step of the holder's operation.
* `implements`: `RingBufQueue` is a lock with a queue.
-/

namespace Cmpth

namespace Delegate

namespace RingBufQueue

variable {K : Type*}

/-- The word of `tail`. -/
def word (claimed : Nat) (free : Bool) : Nat :=
  2 * claimed + free.toNat

theorem word_shift (c : Nat) (b : Bool) : word c b >>> 1 = c := by
  rw [word, Nat.shiftRight_one]
  cases b <;> simp only [Bool.toNat_true, Bool.toNat_false] <;> omega

theorem word_and (c : Nat) (b : Bool) : word c b &&& FREE = b.toNat := by
  rw [word, FREE, Nat.and_one_is_mod]
  cases b <;> simp only [Bool.toNat_true, Bool.toNat_false] <;> omega

theorem shift_eq (c : Nat) : c <<< 1 = word c false := by
  rw [word, Nat.shiftLeft_eq, Bool.toNat_false]
  omega

theorem word_or (c : Nat) : word c false ||| FREE = word c true := by
  have h := Nat.two_pow_add_eq_or_of_lt (i := 1) (b := 1) (by omega) c
  simpa [word, FREE] using h.symm

theorem word_inj {c c' : Nat} {b b' : Bool} (h : word c b = word c' b') : c = c' ∧ b = b' := by
  have hc := word_shift c b
  have hb := word_and c b
  rw [h, word_shift] at hc
  rw [h, word_and] at hb
  refine ⟨hc.symm, ?_⟩
  cases b <;> cases b' <;> first | rfl | cases hb

section

variable {m : Nat}

theorem mask_eq (i : Nat) : mask (2 ^ m) i = i % 2 ^ m :=
  Nat.and_two_pow_sub_one_eq_mod i m

/-- Claims that are out at once have different slots. -/
theorem mask_inj {lo i j : Nat} (h : mask (2 ^ m) i = mask (2 ^ m) j) (hi : lo ≤ i)
    (hi' : i < lo + 2 ^ m) (hj : lo ≤ j) (hj' : j < lo + 2 ^ m) : i = j := by
  rw [mask_eq, mask_eq] at h
  have hpos : 0 < 2 ^ m := Nat.two_pow_pos m
  have hdi := Nat.div_add_mod i (2 ^ m)
  have hdj := Nat.div_add_mod j (2 ^ m)
  -- Otherwise they would be a whole turn apart.
  rcases Nat.lt_trichotomy (i / 2 ^ m) (j / 2 ^ m) with hlt | heq | hgt
  · have hturn := Nat.mul_le_mul_left (2 ^ m) hlt
    rw [Nat.mul_succ] at hturn
    omega
  · rw [heq] at hdi
    omega
  · have hturn := Nat.mul_le_mul_left (2 ^ m) hgt
    rw [Nat.mul_succ] at hturn
    omega

end

/-- The slot of a claim holds its number: its caller has filled in the node,
    and nobody has written to it since. -/
def State.Holds (m : Nat) (s : State K) (i : Nat) : Prop :=
  s.node (mask (2 ^ m) i) = some i

/-- The holder's operation has cleared the flag of the claim. -/
def HolderPc.clears (i : Nat) : HolderPc → Prop
  | .cleared head | .reset head => i = head + 1
  | _ => False

/-- The holder's operation has reset the node of the claim. -/
def HolderPc.resets (i : Nat) : HolderPc → Prop
  | .reset head => i = head
  | _ => False

/-- The claim a caller has made and not yet linked. -/
def CallerPc.claim : CallerPc → Option Nat
  | .claimed idx | .filled idx => some idx
  | .idle | .loaded _ | .checked _ | .locked _ => none

/-- What the holder's operation has found out. -/
def HolderPc.Ok (s : State K) (q : LockQueue) : HolderPc → Prop
  | .nobody => q.served = q.claimed ∨ ∃ k, s.caller k = .locked q.served
  | .holding => s.head = q.served ∧ q.served < q.claimed
  | .unlocking head | .following head =>
      head = q.served ∧ s.head = q.served ∧ q.served < q.claimed
  | .found head | .cleared head | .reset head =>
      head = q.served ∧ s.head = q.served ∧ q.HasNext

/-- The queue is the abstract one. -/
structure Rep (m : Nat) (s : State K) (q : LockQueue) : Prop where
  ok : q.Ok
  tail : s.tail = word q.claimed (decide (q.served = q.claimed))
  head : s.head ≤ q.served
  /-- At most `2 ^ m` slots are claimed. -/
  room : q.claimed ≤ q.served + 2 ^ m
  holder : s.holder.Ok s q
  /-- A caller that has the lock holds the claim being served. -/
  locked : ∀ k idx, s.caller k = .locked idx →
    idx = q.served ∧ q.served < q.claimed ∧ s.holder = .nobody
  one : ∀ k k' idx idx', s.caller k = .locked idx → s.caller k' = .locked idx' → k = k'
  /-- The slots that are ready are those of the linked claims. -/
  ready : ∀ i, s.ready i = true ↔ ∃ j, i = mask (2 ^ m) j ∧ q.served < j ∧ j < q.claimed ∧
    q.linked j = true ∧ ¬ s.holder.clears j
  node : ∀ i, q.served ≤ i → i < q.claimed → q.linked i = true → ¬ s.holder.resets i →
    s.Holds m i
  checked : ∀ k tail, s.caller k = .checked tail → tail &&& FREE = 0 →
    tail >>> 1 < q.served + 2 ^ m
  /-- A caller that waits to link itself has a claim of its own. -/
  claim : ∀ k idx, (s.caller k).claim = some idx →
    q.served < idx ∧ idx < q.claimed ∧ q.linked idx = false
  apart : ∀ k k' idx, (s.caller k).claim = some idx → (s.caller k').claim = some idx → k = k'
  filled : ∀ k idx, s.caller k = .filled idx → s.Holds m idx

section

variable {m : Nat} {s : State K} {q : LockQueue}

namespace Rep

theorem slot_inj (h : Rep m s q) {i j : Nat} (he : mask (2 ^ m) i = mask (2 ^ m) j)
    (hi : q.served ≤ i) (hi' : i < q.claimed) (hj : q.served ≤ j) (hj' : j < q.claimed) :
    i = j := by
  have hroom := h.room
  exact mask_inj he hi (by omega) hj (by omega)

theorem clears_of_idle (h : s.holder = .nobody ∨ s.holder = .holding) (i : Nat) :
    ¬ s.holder.clears i ∧ ¬ s.holder.resets i := by
  rcases h with h | h <;> rw [h] <;> exact ⟨id, id⟩

/-- The tail of a free lock. -/
theorem free_iff (h : Rep m s q) {tail : Nat} (ht : s.tail = tail) :
    tail &&& FREE ≠ 0 ↔ q.served = q.claimed := by
  rw [← ht, h.tail, word_and]
  by_cases hq : q.served = q.claimed
  · simp [hq]
  · simp [hq]

theorem shift_tail (h : Rep m s q) {tail : Nat} (ht : s.tail = tail) : tail >>> 1 = q.claimed := by
  rw [← ht, h.tail, word_shift]

end Rep

variable [DecidableEq K]

omit [DecidableEq K] in
theorem rep_init (hi : init s) : Rep m s .new := by
  rcases hi with ⟨hhead, htail, hready, hnode, hcaller, hholder⟩
  refine
    { ok := LockQueue.ok_new
      tail := htail
      head := by rw [hhead]; exact le_rfl
      room := Nat.zero_le _
      holder := ?_
      locked := fun k idx hk => ?_
      one := fun k k' idx idx' hk => ?_
      ready := fun i => ?_
      node := fun i _ hi => absurd hi (Nat.not_lt_zero i)
      checked := fun k tail hk => ?_
      claim := fun k idx hk => ?_
      apart := fun k k' idx hk => ?_
      filled := fun k idx hk => ?_ }
  · rw [hholder]
    exact .inl rfl
  · rw [hcaller] at hk
    cases hk
  · rw [hcaller] at hk
    cases hk
  · rw [hready]
    exact ⟨nofun, fun ⟨j, _, _, hj, _⟩ => absurd hj (Nat.not_lt_zero j)⟩
  all_goals
    rw [hcaller] at hk
    cases hk

/-- A caller that does not have the lock goes on without a claim. -/
theorem rep_setCaller (h : Rep m s q) {k : K} {pc : CallerPc}
    (hk : ∀ idx, s.caller k ≠ .locked idx) (hc : pc.claim = none) (hl : ∀ idx, pc ≠ .locked idx)
    (hchecked : ∀ tail, pc = .checked tail → tail &&& FREE = 0 → tail >>> 1 < q.served + 2 ^ m) :
    Rep m (s.setCaller k pc) q := by
  have hself : (s.setCaller k pc).caller k = pc := Function.update_self ..
  have hother : ∀ k', k' ≠ k → (s.setCaller k pc).caller k' = s.caller k' :=
    fun k' hne => Function.update_of_ne hne ..
  -- A claim or the lock is somebody else's.
  have hclaim : ∀ k' idx, ((s.setCaller k pc).caller k').claim = some idx →
      (s.caller k').claim = some idx := by
    intro k' idx hk'
    by_cases hne : k' = k
    · rw [hne, hself, hc] at hk'
      cases hk'
    · rwa [hother k' hne] at hk'
  have hlocked : ∀ k' idx, (s.setCaller k pc).caller k' = .locked idx →
      s.caller k' = .locked idx := by
    intro k' idx hk'
    by_cases hne : k' = k
    · rw [hne, hself] at hk'
      exact absurd hk' (hl idx)
    · rwa [hother k' hne] at hk'
  refine
    { ok := h.ok
      tail := h.tail
      head := h.head
      room := h.room
      holder := ?_
      locked := fun k' idx hk' => h.locked k' idx (hlocked k' idx hk')
      one := fun k₁ k₂ i j h₁ h₂ => h.one k₁ k₂ i j (hlocked k₁ i h₁) (hlocked k₂ j h₂)
      ready := h.ready
      node := h.node
      checked := fun k' tail hk' => ?_
      claim := fun k' idx hk' => h.claim k' idx (hclaim k' idx hk')
      apart := fun k₁ k₂ i h₁ h₂ => h.apart k₁ k₂ i (hclaim k₁ i h₁) (hclaim k₂ i h₂)
      filled := fun k' idx hk' => ?_ }
  · have hold := h.holder
    change s.holder.Ok (s.setCaller k pc) q
    cases hp : s.holder <;> rw [hp] at hold
    case nobody =>
      refine hold.imp_right fun ⟨k', hk'⟩ => ⟨k', ?_⟩
      rw [hother k' (by rintro rfl; exact hk _ hk')]
      exact hk'
    all_goals exact hold
  · by_cases hne : k' = k
    · rw [hne, hself] at hk'
      exact hchecked tail hk'
    · rw [hother k' hne] at hk'
      exact h.checked k' tail hk'
  · by_cases hne : k' = k
    · rw [hne, hself] at hk'
      rw [hk'] at hc
      cases hc
    · rw [hother k' hne] at hk'
      exact h.filled k' idx hk'

/-- The exchange of a caller that finds the lock taken. -/
theorem rep_claim (h : Rep m s q) {k : K} {tail : Nat} (hk : s.caller k = .checked tail)
    (ht : s.tail = tail) (hfree : ¬ tail &&& FREE ≠ 0) :
    Rep m
      { s with
        tail := ((tail >>> 1) + 1) <<< 1
        caller := Function.update s.caller k (.claimed (tail >>> 1)) }
      (q.after .startLock) := by
  have hle := h.ok.served
  have hne : q.served ≠ q.claimed := fun he => hfree ((h.free_iff ht).mpr he)
  have hroom := h.checked k tail hk (not_not.mp hfree)
  rw [h.shift_tail ht] at hroom ⊢
  have hself : Function.update s.caller k (.claimed q.claimed) k = .claimed q.claimed :=
    Function.update_self ..
  have hother : ∀ k', k' ≠ k → Function.update s.caller k (.claimed q.claimed) k' = s.caller k' :=
    fun k' hne => Function.update_of_ne hne ..
  -- `k` has a claim now, which is the newest; the places of the others are as before.
  have hlocked : ∀ k' idx, Function.update s.caller k (.claimed q.claimed) k' = .locked idx →
      s.caller k' = .locked idx := by
    intro k' idx hk'
    by_cases hx : k' = k
    · rw [hx, hself] at hk'
      cases hk'
    · rwa [hother k' hx] at hk'
  have hclaim : ∀ k' idx, (Function.update s.caller k (.claimed q.claimed) k').claim = some idx →
      k' = k ∧ idx = q.claimed ∨ k' ≠ k ∧ (s.caller k').claim = some idx := by
    intro k' idx hk'
    by_cases hx : k' = k
    · rw [hx, hself] at hk'
      exact .inl ⟨hx, (Option.some.inj hk').symm⟩
    · rw [hother k' hx] at hk'
      exact .inr ⟨hx, hk'⟩
  have hunlinked : q.linked q.claimed = false := h.ok.linked _ le_rfl
  refine
    { ok := h.ok.after trivial
      tail := ?_
      head := h.head
      room := hroom
      holder := ?_
      locked := fun k' idx hk' => ?_
      one := fun k₁ k₂ i j h₁ h₂ => h.one k₁ k₂ i j (hlocked k₁ i h₁) (hlocked k₂ j h₂)
      ready := fun i => (h.ready i).trans ⟨?_, ?_⟩
      node := fun i hi hi' hl hr => ?_
      checked := fun k' tail' hk' => ?_
      claim := fun k' idx hk' => ?_
      apart := fun k₁ k₂ i h₁ h₂ => ?_
      filled := fun k' idx hk' => ?_ }
  · change (q.claimed + 1) <<< 1 = word (q.claimed + 1) (decide (q.served = q.claimed + 1))
    rw [shift_eq, decide_eq_false (by omega)]
  · -- One more claim is out, which nothing that the holder relies on rules out.
    have hold := h.holder
    change s.holder.Ok _ _
    cases hp : s.holder <;> rw [hp] at hold
    case nobody =>
      rcases hold with he | ⟨k', hk'⟩
      · exact absurd he hne
      · refine .inr ⟨k', ?_⟩
        change Function.update s.caller k _ k' = _
        rw [hother k' (by rintro rfl; rw [hk] at hk'; cases hk')]
        exact hk'
    case holding => exact ⟨hold.1, Nat.lt_succ_of_lt hold.2⟩
    case unlocking | following => exact ⟨hold.1, hold.2.1, Nat.lt_succ_of_lt hold.2.2⟩
    case found | cleared | reset =>
      exact ⟨hold.1, hold.2.1, Nat.lt_succ_of_lt hold.2.2.1, hold.2.2.2⟩
  · have hx := h.locked k' idx (hlocked k' idx hk')
    exact ⟨hx.1, Nat.lt_succ_of_lt hx.2.1, hx.2.2⟩
  · rintro ⟨j, hj, h1, h2, h3, h4⟩
    exact ⟨j, hj, h1, Nat.lt_succ_of_lt h2, h3, h4⟩
  · -- The new claim is not linked, so no slot is ready for it.
    rintro ⟨j, hj, h1, h2, h3, h4⟩
    have h2 : j < q.claimed + 1 := h2
    have h3 : q.linked j = true := h3
    refine ⟨j, hj, h1, lt_of_le_of_ne (Nat.le_of_lt_succ h2) ?_, h3, h4⟩
    rintro rfl
    rw [hunlinked] at h3
    cases h3
  · have hi' : i < q.claimed + 1 := hi'
    have hl : q.linked i = true := hl
    refine h.node i hi (lt_of_le_of_ne (Nat.le_of_lt_succ hi') ?_) hl hr
    rintro rfl
    rw [hunlinked] at hl
    cases hl
  · by_cases hx : k' = k
    · change Function.update s.caller k _ k' = _ at hk'
      rw [hx, hself] at hk'
      cases hk'
    · change Function.update s.caller k _ k' = _ at hk'
      rw [hother k' hx] at hk'
      exact h.checked k' tail' hk'
  · rcases hclaim k' idx hk' with ⟨_, rfl⟩ | ⟨_, hx⟩
    · exact ⟨lt_of_le_of_ne hle hne, Nat.lt_succ_self _, hunlinked⟩
    · have hold := h.claim k' idx hx
      exact ⟨hold.1, Nat.lt_succ_of_lt hold.2.1, hold.2.2⟩
  · -- Two claims are apart, because the new one is the only one of its number.
    rcases hclaim k₁ i h₁ with ⟨hx₁, hi₁⟩ | ⟨_, hi₁⟩ <;>
      rcases hclaim k₂ i h₂ with ⟨hx₂, hi₂⟩ | ⟨_, hi₂⟩
    · rw [hx₁, hx₂]
    · have hlt := (h.claim k₂ i hi₂).2.1
      omega
    · have hlt := (h.claim k₁ i hi₁).2.1
      omega
    · exact h.apart k₁ k₂ i hi₁ hi₂
  · by_cases hx : k' = k
    · change Function.update s.caller k _ k' = _ at hk'
      rw [hx, hself] at hk'
      cases hk'
    · change Function.update s.caller k _ k' = _ at hk'
      rw [hother k' hx] at hk'
      exact h.filled k' idx hk'

/-- The exchange of a caller that finds the lock free. -/
theorem rep_lock (h : Rep m s q) (k : K) {tail : Nat} (ht : s.tail = tail)
    (hfree : tail &&& FREE ≠ 0) :
    Rep m
      { s with
        tail := ((tail >>> 1) + 1) <<< 1
        caller := Function.update s.caller k (.locked (tail >>> 1)) }
      (q.after .startLock) := by
  have heq : q.served = q.claimed := (h.free_iff ht).mp hfree
  have hpos : 0 < 2 ^ m := Nat.two_pow_pos m
  rw [h.shift_tail ht]
  have hself : Function.update s.caller k (.locked q.claimed) k = .locked q.claimed :=
    Function.update_self ..
  have hother : ∀ k', k' ≠ k → Function.update s.caller k (.locked q.claimed) k' = s.caller k' :=
    fun k' hne => Function.update_of_ne hne ..
  -- While the lock is free nobody has it, waits for it, or works on it.
  have hnobody : s.holder = .nobody := by
    have hold := h.holder
    -- Each place of a holder says that there is a claim to serve.
    cases hp : s.holder <;> rw [hp] at hold
    case holding => exact absurd heq (Nat.ne_of_lt hold.2)
    case unlocking | following => exact absurd heq (Nat.ne_of_lt hold.2.2)
    case found | cleared | reset =>
      exact absurd heq (Nat.ne_of_lt (Nat.lt_of_succ_lt hold.2.2.1))
  have hlocked : ∀ k' idx, Function.update s.caller k (.locked q.claimed) k' = .locked idx →
      k' = k ∧ idx = q.claimed := by
    intro k' idx hk'
    by_cases hx : k' = k
    · rw [hx, hself] at hk'
      cases hk'
      exact ⟨hx, rfl⟩
    · rw [hother k' hx] at hk'
      exact absurd heq (Nat.ne_of_lt (h.locked k' idx hk').2.1)
  have hclaim : ∀ k' idx, (Function.update s.caller k (.locked q.claimed) k').claim ≠ some idx := by
    intro k' idx hk'
    by_cases hx : k' = k
    · rw [hx, hself] at hk'
      cases hk'
    · rw [hother k' hx] at hk'
      have hold := h.claim k' idx hk'
      omega
  -- Claims that are not out are not linked.
  have hlinked : ∀ j, q.claimed ≤ j → q.linked j ≠ true := by
    intro j hj hl
    rw [h.ok.linked j hj] at hl
    cases hl
  refine
    { ok := h.ok.after trivial
      tail := ?_
      head := h.head
      room := ?_
      holder := ?_
      locked := fun k' idx hk' => ?_
      one := fun k₁ k₂ i j h₁ h₂ => (hlocked k₁ i h₁).1.trans (hlocked k₂ j h₂).1.symm
      ready := fun i => (h.ready i).trans ⟨?_, ?_⟩
      node := fun i hi hi' hl _ => ?_
      checked := fun k' tail' hk' => ?_
      claim := fun k' idx hk' => absurd hk' (hclaim k' idx)
      apart := fun k₁ _ i h₁ => absurd h₁ (hclaim k₁ i)
      filled := fun k' idx hk' => absurd (congrArg CallerPc.claim hk') (hclaim k' idx) }
  · change (q.claimed + 1) <<< 1 = word (q.claimed + 1) (decide (q.served = q.claimed + 1))
    rw [shift_eq, decide_eq_false (by omega)]
  · change q.claimed + 1 ≤ q.served + 2 ^ m
    omega
  · change s.holder.Ok _ _
    rw [hnobody]
    refine .inr ⟨k, ?_⟩
    change Function.update s.caller k _ k = .locked q.served
    rw [hself, heq]
  · have hx := (hlocked k' idx hk').2
    refine ⟨hx.trans heq.symm, ?_, hnobody⟩
    change q.served < q.claimed + 1
    omega
  · rintro ⟨j, _, h1, h2, _⟩
    omega
  · rintro ⟨j, _, h1, _, h3, _⟩
    have h1 : q.served < j := h1
    exact absurd h3 (hlinked j (by omega))
  · have hi : q.served ≤ i := hi
    exact absurd hl (hlinked i (by omega))
  · by_cases hx : k' = k
    · change Function.update s.caller k _ k' = _ at hk'
      rw [hx, hself] at hk'
      cases hk'
    · change Function.update s.caller k _ k' = _ at hk'
      rw [hother k' hx] at hk'
      exact h.checked k' tail' hk'

/-- The new holder stores its slot in `head`. -/
theorem rep_storeHead (h : Rep m s q) {k : K} {idx : Nat} (hk : s.caller k = .locked idx) :
    Rep m
      { s.setCaller k .idle with
        head := idx
        holder := .holding } q := by
  -- Who has taken the free lock has the oldest claim, and nobody holds it yet.
  rcases h.locked k idx hk with ⟨rfl, hlt, hnobody⟩
  have hself : Function.update s.caller k .idle k = .idle := Function.update_self ..
  have hother : ∀ k', k' ≠ k → Function.update s.caller k .idle k' = s.caller k' :=
    fun k' hne => Function.update_of_ne hne ..
  have hpc : ∀ k' pc, pc ≠ .idle → Function.update s.caller k .idle k' = pc →
      k' ≠ k ∧ s.caller k' = pc := by
    intro k' pc hne hk'
    by_cases hx : k' = k
    · rw [hx, hself] at hk'
      exact absurd hk'.symm hne
    · rw [hother k' hx] at hk'
      exact ⟨hx, hk'⟩
  have hclaim : ∀ k' idx, (Function.update s.caller k .idle k').claim = some idx →
      (s.caller k').claim = some idx := by
    intro k' idx hk'
    by_cases hx : k' = k
    · rw [hx, hself] at hk'
      cases hk'
    · rwa [hother k' hx] at hk'
  have hnone := Rep.clears_of_idle (s := s) (.inl hnobody)
  -- The caller is idle again: what it was is now the holder.
  refine
    { ok := h.ok
      tail := h.tail
      head := le_rfl
      room := h.room
      holder := ⟨rfl, hlt⟩
      locked := fun k' idx hk' => ?_
      one := fun k₁ k₂ i j h₁ h₂ => ?_
      ready := fun i => (h.ready i).trans ⟨?_, ?_⟩
      node := fun i hi hi' hl _ => h.node i hi hi' hl (hnone i).2
      checked := fun k' tail' hk' => h.checked k' tail' (hpc k' (.checked tail') nofun hk').2
      claim := fun k' idx hk' => h.claim k' idx (hclaim k' idx hk')
      apart := fun k₁ k₂ i h₁ h₂ => h.apart k₁ k₂ i (hclaim k₁ i h₁) (hclaim k₂ i h₂)
      filled := fun k' idx hk' => h.filled k' idx (hpc k' (.filled idx) nofun hk').2 }
  · rcases hpc k' (.locked idx) nofun hk' with ⟨hne, hold⟩
    exact absurd (h.one k' k _ _ hold hk) hne
  · rcases hpc k₁ (.locked i) nofun h₁ with ⟨hne, hold⟩
    exact absurd (h.one k₁ k _ _ hold hk) hne
  · rintro ⟨j, h1, h2, h3, h4, _⟩
    exact ⟨j, h1, h2, h3, h4, id⟩
  · rintro ⟨j, h1, h2, h3, h4, _⟩
    exact ⟨j, h1, h2, h3, h4, (hnone j).1⟩

/-- A caller fills in the node of its slot, which is nobody else's. -/
theorem rep_fill (h : Rep m s q) {k : K} {idx : Nat} (hk : s.caller k = .claimed idx) :
    Rep m
      { s.setCaller k (.filled idx) with
        node := Function.update s.node (mask (2 ^ m) idx) (some idx) } q := by
  have hmine := h.claim k idx (congrArg CallerPc.claim hk)
  have hself : Function.update s.caller k (.filled idx) k = .filled idx := Function.update_self ..
  have hother : ∀ k', k' ≠ k → Function.update s.caller k (.filled idx) k' = s.caller k' :=
    fun k' hne => Function.update_of_ne hne ..
  have hpc : ∀ k' pc, pc ≠ .filled idx → Function.update s.caller k (.filled idx) k' = pc →
      k' ≠ k ∧ s.caller k' = pc := by
    intro k' pc hne hk'
    by_cases hx : k' = k
    · rw [hx, hself] at hk'
      exact absurd hk'.symm hne
    · rw [hother k' hx] at hk'
      exact ⟨hx, hk'⟩
  -- Every caller keeps its claim.
  have hclaim : ∀ k' i, (Function.update s.caller k (.filled idx) k').claim = some i →
      (s.caller k').claim = some i := by
    intro k' i hk'
    by_cases hx : k' = k
    · rw [hx, hself] at hk'
      rw [hx, hk]
      exact hk'
    · rwa [hother k' hx] at hk'
  -- The slots of other claims are others.
  have hnode : ∀ i, q.served ≤ i → i < q.claimed → i ≠ idx →
      Function.update s.node (mask (2 ^ m) idx) (some idx) (mask (2 ^ m) i) =
        s.node (mask (2 ^ m) i) := by
    intro i hi hi' hne
    refine Function.update_of_ne (fun he => hne ?_) ..
    exact h.slot_inj he hi hi' (le_of_lt hmine.1) hmine.2.1
  refine
    { ok := h.ok
      tail := h.tail
      head := h.head
      room := h.room
      holder := ?_
      locked := fun k' i hk' => h.locked k' i (hpc k' (.locked i) nofun hk').2
      one := fun k₁ k₂ i j h₁ h₂ =>
        h.one k₁ k₂ i j (hpc k₁ (.locked i) nofun h₁).2 (hpc k₂ (.locked j) nofun h₂).2
      ready := h.ready
      node := fun i hi hi' hl hr => ?_
      checked := fun k' tail' hk' => h.checked k' tail' (hpc k' (.checked tail') nofun hk').2
      claim := fun k' i hk' => h.claim k' i (hclaim k' i hk')
      apart := fun k₁ k₂ i h₁ h₂ => h.apart k₁ k₂ i (hclaim k₁ i h₁) (hclaim k₂ i h₂)
      filled := fun k' i hk' => ?_ }
  · -- The holder is where it was; a caller that has the lock has no claim to fill.
    have hold := h.holder
    change s.holder.Ok _ _
    cases hp : s.holder <;> rw [hp] at hold
    case nobody =>
      refine hold.imp_right fun ⟨k', hk'⟩ => ⟨k', ?_⟩
      change Function.update s.caller k _ k' = _
      rw [hother k' (by rintro rfl; rw [hk] at hk'; cases hk')]
      exact hk'
    all_goals exact hold
  · -- Only the slot of the claim is filled, and that is not linked yet.
    refine (hnode i hi hi' ?_).trans (h.node i hi hi' hl hr)
    rintro rfl
    rw [hmine.2.2] at hl
    cases hl
  · change Function.update s.node _ _ _ = _
    by_cases hx : k' = k
    · change Function.update s.caller k _ k' = _ at hk'
      rw [hx, hself] at hk'
      cases hk'
      rw [Function.update_self]
    · change Function.update s.caller k _ k' = _ at hk'
      rw [hother k' hx] at hk'
      have hi := h.claim k' i (congrArg CallerPc.claim hk')
      have hne : i ≠ idx := by
        rintro rfl
        exact hx (h.apart k' k i (congrArg CallerPc.claim hk') (congrArg CallerPc.claim hk))
      rw [hnode i (le_of_lt hi.1) hi.2.1 hne]
      exact h.filled k' i hk'

/-- A caller marks its slot ready. -/
theorem rep_setNext (h : Rep m s q) {k : K} {idx : Nat} (hk : s.caller k = .filled idx) :
    Rep m
      { s.setCaller k .idle with ready := Function.update s.ready (mask (2 ^ m) idx) true }
      (q.after (.setNext idx)) := by
  have hmine := h.claim k idx (congrArg CallerPc.claim hk)
  have hself : Function.update s.caller k .idle k = .idle := Function.update_self ..
  have hother : ∀ k', k' ≠ k → Function.update s.caller k .idle k' = s.caller k' :=
    fun k' hne => Function.update_of_ne hne ..
  -- The caller is idle again, and the others keep their claims.
  have hpc : ∀ k' pc, pc ≠ .idle → Function.update s.caller k .idle k' = pc →
      k' ≠ k ∧ s.caller k' = pc := by
    intro k' pc hne hk'
    by_cases hx : k' = k
    · rw [hx, hself] at hk'
      exact absurd hk'.symm hne
    · rw [hother k' hx] at hk'
      exact ⟨hx, hk'⟩
  have hclaim : ∀ k' i, (Function.update s.caller k .idle k').claim = some i →
      k' ≠ k ∧ (s.caller k').claim = some i := by
    intro k' i hk'
    by_cases hx : k' = k
    · rw [hx, hself] at hk'
      cases hk'
    · rw [hother k' hx] at hk'
      exact ⟨hx, hk'⟩
  have hlinkSelf : Function.update q.linked idx true idx = true := Function.update_self ..
  have hlink : ∀ i, i ≠ idx → Function.update q.linked idx true i = q.linked i :=
    fun i hne => Function.update_of_ne hne ..
  have hnext : q.HasNext → (q.after (.setNext idx)).HasNext := by
    intro hn
    refine ⟨hn.1, ?_⟩
    by_cases hx : q.served + 1 = idx
    · exact (congrArg _ hx).trans hlinkSelf
    · exact (hlink _ hx).trans hn.2
  -- The holder does not clear the flag of a claim that is not linked.
  have hclears : ¬ s.holder.clears idx := by
    have hold := h.holder
    have hlast : ∀ head, s.holder.Ok s q → head = q.served ∧ q.HasNext → idx ≠ head + 1 := by
      rintro head - ⟨rfl, hn⟩ rfl
      exact absurd (hn.2.symm.trans hmine.2.2) nofun
    cases hp : s.holder <;> rw [hp] at hold
    case cleared | reset => exact hlast _ h.holder ⟨hold.1, hold.2.2⟩
    all_goals exact id
  refine
    { ok := h.ok.after ⟨hmine.1, hmine.2.1, hmine.2.2⟩
      tail := h.tail
      head := h.head
      room := h.room
      holder := ?_
      locked := fun k' i hk' => h.locked k' i (hpc k' (.locked i) nofun hk').2
      one := fun k₁ k₂ i j h₁ h₂ =>
        h.one k₁ k₂ i j (hpc k₁ (.locked i) nofun h₁).2 (hpc k₂ (.locked j) nofun h₂).2
      ready := fun i => ⟨fun hi => ?_, ?_⟩
      node := fun i hi hi' hl hr => ?_
      checked := fun k' tail' hk' => h.checked k' tail' (hpc k' (.checked tail') nofun hk').2
      claim := fun k' i hk' => ?_
      apart := fun k₁ k₂ i h₁ h₂ => h.apart k₁ k₂ i (hclaim k₁ i h₁).2 (hclaim k₂ i h₂).2
      filled := fun k' i hk' => h.filled k' i (hpc k' (.filled i) nofun hk').2 }
  · have hold := h.holder
    change s.holder.Ok _ _
    cases hp : s.holder <;> rw [hp] at hold
    case nobody =>
      refine hold.imp_right fun ⟨k', hk'⟩ => ⟨k', ?_⟩
      change Function.update s.caller k _ k' = _
      rw [hother k' (by rintro rfl; rw [hk] at hk'; cases hk')]
      exact hk'
    case found | cleared | reset => exact ⟨hold.1, hold.2.1, hnext hold.2.2⟩
    all_goals exact hold
  · -- The slot that is ready now is that of the claim which is linked now.
    by_cases hx : i = mask (2 ^ m) idx
    · exact ⟨idx, hx, hmine.1, hmine.2.1, hlinkSelf, hclears⟩
    · have hi : Function.update s.ready (mask (2 ^ m) idx) true i = true := hi
      rw [Function.update_of_ne hx] at hi
      rcases (h.ready i).mp hi with ⟨j, hj, h1, h2, h3, h4⟩
      refine ⟨j, hj, h1, h2, ?_, h4⟩
      exact (hlink j (by rintro rfl; exact hx hj)).trans h3
  · rintro ⟨j, hj, h1, h2, h3, h4⟩
    change Function.update s.ready (mask (2 ^ m) idx) true i = true
    by_cases hx : i = mask (2 ^ m) idx
    · rw [hx, Function.update_self]
    · have hne : j ≠ idx := by
        rintro rfl
        exact hx hj
      rw [Function.update_of_ne hx]
      exact (h.ready i).mpr ⟨j, hj, h1, h2, (hlink j hne).symm.trans h3, h4⟩
  · by_cases hx : i = idx
    · rw [hx]
      exact h.filled k idx hk
    · exact h.node i hi hi' ((hlink i hx).symm.trans hl) hr
  · rcases hclaim k' i hk' with ⟨hne, hi⟩
    have hold := h.claim k' i hi
    refine ⟨hold.1, hold.2.1, (hlink i ?_).trans hold.2.2⟩
    rintro rfl
    exact hne (h.apart k' k i hi (congrArg CallerPc.claim hk))

omit [DecidableEq K] in
/-- While somebody holds the lock, nobody is about to. -/
theorem Rep.not_locked (h : Rep m s q) (hh : s.holder ≠ .nobody) (k : K) (idx : Nat) :
    s.caller k ≠ .locked idx :=
  fun hk => hh (h.locked k idx hk).2.2

omit [DecidableEq K] in
/-- The holder goes on, without a write. -/
theorem rep_holder (h : Rep m s q) {pc : HolderPc} (hh : s.holder ≠ .nobody)
    (hok : pc.Ok s q) (hclears : ∀ i, pc.clears i ↔ s.holder.clears i)
    (hresets : ∀ i, s.holder.resets i → pc.resets i) :
    Rep m { s with holder := pc } q :=
  { ok := h.ok
    tail := h.tail
    head := h.head
    room := h.room
    holder := by cases pc <;> exact hok
    locked := fun k idx hk => absurd hk (h.not_locked hh k idx)
    one := h.one
    ready := fun i => (h.ready i).trans (exists_congr fun j => by rw [hclears j])
    node := fun i hi hi' hl hr => h.node i hi hi' hl fun hx => hr (hresets i hx)
    checked := h.checked
    claim := h.claim
    apart := h.apart
    filled := h.filled }

omit [DecidableEq K] in
/-- The exchange of `try_unlock` succeeds exactly when nobody waits. -/
theorem Rep.unlocks_iff (h : Rep m s q) (hlt : q.served < q.claimed) :
    s.tail = (q.served + 1) <<< 1 ↔ q.served + 1 = q.claimed := by
  rw [h.tail, shift_eq, decide_eq_false (Nat.ne_of_lt hlt)]
  exact ⟨fun he => (word_inj he).1.symm, fun he => by rw [he]⟩

omit [DecidableEq K] in
/-- The holder frees the lock. -/
theorem rep_unlock (h : Rep m s q) (hh : s.holder = .unlocking q.served)
    (hlast : q.served + 1 = q.claimed) :
    Rep m
      { s with
        tail := s.tail ||| FREE
        holder := .nobody } (q.after .tryUnlock) := by
  have hbusy : s.holder ≠ .nobody := by
    rw [hh]
    nofun
  -- Nobody waits, so no slot is claimed and none is ready.
  have hnone : ∀ j, q.served < j → ¬ j < q.claimed := fun j h1 h2 => by omega
  rw [show q.after .tryUnlock = { q with served := q.claimed } from if_pos hlast]
  refine
    { ok := ⟨le_rfl, h.ok.linked⟩
      tail := ?_
      head := h.head.trans h.ok.served
      room := Nat.le_add_right _ _
      holder := .inl rfl
      locked := fun k idx hk => absurd hk (h.not_locked hbusy k idx)
      one := h.one
      ready := fun i => (h.ready i).trans ⟨?_, ?_⟩
      node := fun i hi hi' => absurd hi' (Nat.not_lt.mpr hi)
      checked := fun k tail hk hf => ?_
      claim := fun k idx hk => ?_
      apart := h.apart
      filled := h.filled }
  · change s.tail ||| FREE = _
    rw [h.tail, decide_eq_false (by omega), word_or, decide_eq_true rfl]
  · rintro ⟨j, _, h1, h2, _⟩
    exact absurd h2 (hnone j h1)
  · rintro ⟨j, _, h1, h2, _⟩
    exact absurd h2 (Nat.not_lt.mpr (le_of_lt h1))
  · exact lt_of_lt_of_le (h.checked k tail hk hf) (Nat.add_le_add_right h.ok.served _)
  · have hold := h.claim k idx hk
    exact absurd hold.2.1 (hnone idx hold.1)

omit [DecidableEq K] in
/-- The slot after the holder's is ready exactly when its successor has linked
    itself. -/
theorem Rep.ready_next (h : Rep m s q) (hc : ¬ s.holder.clears (q.served + 1)) :
    s.ready (mask (2 ^ m) (q.served + 1)) = true ↔ q.HasNext := by
  rw [h.ready]
  have hroom := h.room
  refine ⟨?_, fun hn => ⟨q.served + 1, rfl, Nat.lt_succ_self _, hn.1, hn.2, hc⟩⟩
  rintro ⟨j, hj, h1, h2, h3, _⟩
  have heq : q.served + 1 = j :=
    mask_inj hj le_rfl (Nat.lt_add_of_pos_right (Nat.two_pow_pos m)) h1 (by omega)
  exact ⟨heq ▸ h2, heq ▸ h3⟩

omit [DecidableEq K] in
/-- The holder clears the flag of its successor. -/
theorem rep_clear (h : Rep m s q) (hh : s.holder = .found q.served) :
    Rep m
      { s with
        ready := Function.update s.ready (mask (2 ^ m) (q.served + 1)) false
        holder := .cleared q.served } q := by
  have hold := h.holder
  rw [hh] at hold
  have hbusy : s.holder ≠ .nobody := by
    rw [hh]
    nofun
  have hlt := hold.2.2.1
  refine
    { ok := h.ok
      tail := h.tail
      head := h.head
      room := h.room
      holder := hold
      locked := fun k idx hk => absurd hk (h.not_locked hbusy k idx)
      one := h.one
      ready := fun i => ⟨fun hi => ?_, ?_⟩
      node := fun i hi hi' hl _ => h.node i hi hi' hl (by rw [hh]; exact id)
      checked := h.checked
      claim := h.claim
      apart := h.apart
      filled := h.filled }
  · have hi : Function.update s.ready (mask (2 ^ m) (q.served + 1)) false i = true := hi
    -- The slot of the successor is the only one whose flag goes.
    by_cases hx : i = mask (2 ^ m) (q.served + 1)
    · rw [hx, Function.update_self] at hi
      cases hi
    · rw [Function.update_of_ne hx] at hi
      rcases (h.ready i).mp hi with ⟨j, hj, h1, h2, h3, _⟩
      refine ⟨j, hj, h1, h2, h3, ?_⟩
      rintro rfl
      exact hx hj
  · rintro ⟨j, hj, h1, h2, h3, h4⟩
    have h4 : j ≠ q.served + 1 := h4
    -- Another claim that is out has another slot, since the ring is not longer than it has slots.
    have hx : i ≠ mask (2 ^ m) (q.served + 1) := by
      rw [hj]
      exact fun he => h4 (h.slot_inj he (le_of_lt h1) h2 (Nat.le_succ _) hlt)
    change Function.update s.ready (mask (2 ^ m) (q.served + 1)) false i = true
    rw [Function.update_of_ne hx]
    exact (h.ready i).mpr ⟨j, hj, h1, h2, h3, by rw [hh]; exact id⟩

omit [DecidableEq K] in
/-- The holder resets its own node, which nobody uses any more. -/
theorem rep_reset (h : Rep m s q) (hh : s.holder = .cleared q.served) :
    Rep m
      { s with
        node := Function.update s.node (mask (2 ^ m) q.served) none
        holder := .reset q.served } q := by
  have hold := h.holder
  rw [hh] at hold
  have hbusy : s.holder ≠ .nobody := by
    rw [hh]
    nofun
  have hlt := Nat.lt_of_succ_lt hold.2.2.1
  -- The slot that is reset is of no other claim.
  have hnode : ∀ i, q.served < i → i < q.claimed →
      Function.update s.node (mask (2 ^ m) q.served) none (mask (2 ^ m) i) =
        s.node (mask (2 ^ m) i) := by
    intro i hi hi'
    refine Function.update_of_ne (fun he => absurd hi (Nat.not_lt.mpr ?_)) ..
    exact le_of_eq (h.slot_inj he (le_of_lt hi) hi' le_rfl hlt)
  refine
    { ok := h.ok
      tail := h.tail
      head := h.head
      room := h.room
      holder := hold
      locked := fun k idx hk => absurd hk (h.not_locked hbusy k idx)
      one := h.one
      ready := fun i => (h.ready i).trans (by rw [hh]; rfl)
      node := fun i hi hi' hl hr => ?_
      checked := h.checked
      claim := h.claim
      apart := h.apart
      filled := fun k idx hk => ?_ }
  · have hr : i ≠ q.served := hr
    refine (hnode i (lt_of_le_of_ne hi (Ne.symm hr)) hi').trans ?_
    exact h.node i hi hi' hl (by rw [hh]; exact id)
  · have hmine := h.claim k idx (congrArg CallerPc.claim hk)
    exact (hnode idx hmine.1 hmine.2.1).trans (h.filled k idx hk)

omit [DecidableEq K] in
/-- The holder gives the lock to its successor. -/
theorem rep_advance (h : Rep m s q) (hh : s.holder = .reset q.served) :
    Rep m
      { s with
        head := q.served + 1
        holder := .holding } (q.after .tryFollowHead) := by
  have hold := h.holder
  rw [hh] at hold
  rcases hold with ⟨_, _, hn⟩
  have hlt := hn.1
  have hroom := h.room
  have hbusy : s.holder ≠ .nobody := by
    rw [hh]
    nofun
  rw [show q.after .tryFollowHead = { q with served := q.served + 1 } from if_pos hn]
  refine
    { ok := ⟨le_of_lt hlt, h.ok.linked⟩
      tail := ?_
      head := le_rfl
      room := ?_
      holder := ⟨rfl, hlt⟩
      locked := fun k idx hk => absurd hk (h.not_locked hbusy k idx)
      one := h.one
      ready := fun i => (h.ready i).trans ⟨?_, ?_⟩
      node := fun i hi hi' hl _ => ?_
      checked := fun k tail hk hf => ?_
      claim := fun k idx hk => ?_
      apart := h.apart
      filled := h.filled }
  · change s.tail = word q.claimed (decide (q.served + 1 = q.claimed))
    rw [h.tail, decide_eq_false (by omega), decide_eq_false (by omega)]
  · change q.claimed ≤ q.served + 1 + 2 ^ m
    omega
  · rintro ⟨j, hj, h1, h2, h3, h4⟩
    rw [hh] at h4
    exact ⟨j, hj, lt_of_le_of_ne h1 (Ne.symm h4), h2, h3, id⟩
  · rintro ⟨j, hj, h1, h2, h3, _⟩
    have h1 : q.served + 1 < j := h1
    exact ⟨j, hj, by omega, h2, h3, by rw [hh]; exact Nat.ne_of_gt h1⟩
  · have hi : q.served + 1 ≤ i := hi
    exact h.node i (by omega) hi' hl (by rw [hh]; exact Nat.ne_of_gt hi)
  · have hlim := h.checked k tail hk hf
    change tail >>> 1 < q.served + 1 + 2 ^ m
    omega
  · have hmine := h.claim k idx hk
    -- The successor has linked itself, so it is not one of those.
    have hne : idx ≠ q.served + 1 := by
      rintro rfl
      exact absurd (hn.2.symm.trans hmine.2.2) nofun
    exact ⟨lt_of_le_of_ne hmine.1 (Ne.symm hne), hmine.2.1, hmine.2.2⟩

/-- A caller goes on from the check for a full ring only if there is room. -/
theorem rep_checkFull (h : Rep m s q) {k : K} {tail : Nat} (hk : s.caller k = .loaded tail) :
    Rep m (s.checkFull (2 ^ m) k tail) q := by
  have hnot : ∀ idx, s.caller k ≠ .locked idx := fun idx he => by
    rw [hk] at he
    cases he
  unfold State.checkFull
  by_cases hfull : tail &&& FREE = 0 ∧ (tail >>> 1 < s.head ∨ tail >>> 1 - s.head ≥ 2 ^ m)
  · rw [if_pos hfull]
    exact rep_setCaller h hnot rfl nofun nofun
  · rw [if_neg hfull]
    refine rep_setCaller h hnot rfl nofun fun tail' he hf => ?_
    cases he
    have hhead := h.head
    have hroom : ¬ (tail >>> 1 < s.head ∨ tail >>> 1 - s.head ≥ 2 ^ m) := fun hx => hfull ⟨hf, hx⟩
    omega

omit [DecidableEq K] in
/-- The next step of the holder's operation. -/
theorem rep_holderStep (h : Rep m s q) (hbusy : s.holder ≠ .nobody)
    (hop : s.holder ≠ .holding) :
    label (2 ^ m) s (.holder : Action K) = none ∧ Rep m (s.holderStep (2 ^ m)) q ∨
      ∃ o, label (2 ^ m) s (.holder : Action K) = some (o, q.result o) ∧ q.allowed o ∧
        Rep m (s.holderStep (2 ^ m)) (q.after o) := by
  have hold := h.holder
  unfold label State.holderStep
  -- One case for each access of `try_unlock` and `try_follow_head`.
  cases hp : s.holder <;> rw [hp] at hold
  case nobody => exact absurd hp hbusy
  case holding => exact absurd hp hop
  case unlocking head =>
    rcases hold with ⟨rfl, hhead, hlt⟩
    refine .inr ⟨.tryUnlock, ?_, hlt, ?_⟩
    · have hsame : (s.tail == (q.served + 1) <<< 1) = (q.served + 1 == q.claimed) := by
        rw [Bool.eq_iff_iff, beq_iff_eq, beq_iff_eq]
        exact h.unlocks_iff hlt
      dsimp only
      rw [hsame]
      rfl
    · dsimp only
      -- `try_unlock` answers by its exchange.
      by_cases hlast : q.served + 1 = q.claimed
      · rw [if_pos ((h.unlocks_iff hlt).mpr hlast)]
        exact rep_unlock h hp hlast
      · rw [if_neg fun he => hlast ((h.unlocks_iff hlt).mp he),
          show q.after .tryUnlock = q from if_neg hlast]
        refine rep_holder h hbusy ⟨hhead, hlt⟩ (fun i => ?_) fun i hi => ?_
        · rw [hp]
          rfl
        · rw [hp] at hi
          exact hi
  case following head =>
    rcases hold with ⟨rfl, hhead, hlt⟩
    have hready := h.ready_next (by rw [hp]; exact id)
    have hclears : ∀ pc : HolderPc, (∀ i, pc.clears i ↔ False) → ∀ i,
        pc.clears i ↔ s.holder.clears i := fun pc hpc i => by
      rw [hpc, hp]
      rfl
    have hresets : ∀ pc : HolderPc, ∀ i, s.holder.resets i → pc.resets i := fun pc i hi => by
      rw [hp] at hi
      exact hi.elim
    dsimp only
    -- `try_follow_head` answers here if nobody is linked, and goes on to take the next otherwise.
    by_cases hn : q.HasNext
    · rw [if_pos (hready.mpr hn), if_pos (hready.mpr hn)]
      exact .inl ⟨rfl, rep_holder h hbusy ⟨rfl, hhead, hn⟩ (hclears _ fun _ => Iff.rfl) (hresets _)⟩
    · rw [if_neg fun he => hn (hready.mp he), if_neg fun he => hn (hready.mp he)]
      refine .inr ⟨.tryFollowHead, ?_, hlt, ?_⟩
      · rw [LockQueue.result, if_neg hn]
      · rw [show q.after .tryFollowHead = q from if_neg hn]
        exact rep_holder h hbusy ⟨hhead, hlt⟩ (hclears _ fun _ => Iff.rfl) (hresets _)
  case found head =>
    rcases hold with ⟨rfl, _, _⟩
    exact .inl ⟨rfl, rep_clear h hp⟩
  case cleared head =>
    rcases hold with ⟨rfl, _, _⟩
    exact .inl ⟨rfl, rep_reset h hp⟩
  -- The operation is over with the store of `head`.
  case reset head =>
    rcases hold with ⟨rfl, _, hn⟩
    refine .inr ⟨.tryFollowHead, ?_, Nat.lt_of_succ_lt hn.1, rep_advance h hp⟩
    have hnode : s.node (mask (2 ^ m) (q.served + 1)) = some (q.served + 1) :=
      h.node (q.served + 1) (Nat.le_succ _) hn.1 hn.2 (by rw [hp]; exact Nat.succ_ne_self _)
    dsimp only
    rw [hnode, LockQueue.result, if_pos hn]

/-- `RingBufQueue` is a lock with a queue. -/
theorem implements (m : Nat) :
    LockQueue.Implements (system (K := K) (2 ^ m)) (label (2 ^ m)) (Rep m) where
  init _ hi := rep_init hi
  step s q a h hg := by
    -- The steps that are no operation leave the abstract queue alone.
    have hfree : ∀ k pc, s.caller k = pc → (∀ idx, pc ≠ .locked idx) →
        ∀ idx, s.caller k ≠ .locked idx := by
      rintro k pc rfl hpc
      exact hpc
    have hbusy : ∀ i, s.holder = .holding → ¬ s.holder.clears i ∧ ¬ s.holder.resets i :=
      fun i hp => Rep.clears_of_idle (.inr hp) i
    cases a with
    | loadTail k => exact .inl ⟨rfl, rep_setCaller h (hfree k _ hg nofun) rfl nofun nofun⟩
    | loadHead k =>
        rcases hg with ⟨tail, hk⟩
        refine .inl ⟨rfl, ?_⟩
        change Rep m (next (2 ^ m) s (.loadHead k)) q
        rw [next, hk]
        exact rep_checkFull h hk
    | exchange k spurious =>
        rcases hg with ⟨tail, hk⟩
        change label (2 ^ m) s (.exchange k spurious) = none ∧ 
          Rep m (next (2 ^ m) s (.exchange k spurious)) q ∨
          ∃ o, label (2 ^ m) s (.exchange k spurious) = some (o, q.result o) ∧ q.allowed o ∧
            Rep m (next (2 ^ m) s (.exchange k spurious)) (q.after o)
        rw [label, next, hk]
        dsimp only
        unfold State.exchange
        by_cases hx : s.tail = tail ∧ spurious = false
        · rw [if_pos hx, if_pos hx]
          refine .inr ⟨.startLock, ?_, trivial, ?_⟩
          · have hiff := h.free_iff hx.1
            have hsame : (tail &&& FREE != 0) = (q.served == q.claimed) := by
              rw [Bool.eq_iff_iff, bne_iff_ne, beq_iff_eq]
              exact hiff
            rw [hsame, h.shift_tail hx.1]
            rfl
          · by_cases hlock : tail &&& FREE ≠ 0
            · rw [if_pos hlock]
              exact rep_lock h k hx.1 hlock
            · rw [if_neg hlock]
              exact rep_claim h hk hx.1 hlock
        · rw [if_neg hx, if_neg hx]
          exact .inl ⟨rfl, rep_setCaller h (hfree k _ hk nofun) rfl nofun nofun⟩
    | storeHead k =>
        rcases hg with ⟨idx, hk⟩
        refine .inl ⟨rfl, ?_⟩
        change Rep m (next (2 ^ m) s (.storeHead k)) q
        rw [next, hk]
        exact rep_storeHead h hk
    | fill k =>
        rcases hg with ⟨idx, hk⟩
        refine .inl ⟨rfl, ?_⟩
        change Rep m (next (2 ^ m) s (.fill k)) q
        rw [next, hk]
        exact rep_fill h hk
    | setNext k =>
        rcases hg with ⟨idx, hk⟩
        refine .inr ⟨.setNext idx, ?_, h.claim k idx (congrArg CallerPc.claim hk), ?_⟩
        · rw [label, hk]
          rfl
        · change Rep m (next (2 ^ m) s (.setNext k)) _
          rw [next, hk]
          exact rep_setNext h hk
    | unlock =>
        have hp : s.holder = .holding := hg
        have hold := h.holder
        rw [hp] at hold
        refine .inl ⟨rfl, rep_holder h (by rw [hp]; nofun) ⟨hold.1, hold⟩ (fun i => ?_)
          fun i hi => absurd hi (hbusy i hp).2⟩
        exact iff_of_false id (hbusy i hp).1
    | follow =>
        have hp : s.holder = .holding := hg
        have hold := h.holder
        rw [hp] at hold
        refine .inl ⟨rfl, rep_holder h (by rw [hp]; nofun) ⟨hold.1, hold⟩ (fun i => ?_)
          fun i hi => absurd hi (hbusy i hp).2⟩
        exact iff_of_false id (hbusy i hp).1
    | holder => exact rep_holderStep h hg.1 hg.2

end

end RingBufQueue

end Delegate

end Cmpth

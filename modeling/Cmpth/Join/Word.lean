import Mathlib.Tactic.Common

/-!
# The Join Word

`join_state` of a task descriptor: one word that says who waits for the task,
or that it has finished or lost its handle.

Three small numbers stand for the states without a pointer. Descriptors and
boxed wakers are aligned to eight bytes, which leaves the low bits of their
addresses for the tags of the other three. `Ptr` carries that alignment, so a
state that could not be told from another cannot be written down.

## Main definitions

* `Ptr`: An aligned, non-null address.
* `JoinState`: The decoded view of the word.
* `encode`: The word that is stored for a state.
* `decodeJoinState`: What `decode_join_state` makes of a word.
* `Encoding`: What the protocol needs to know of the two.
* `wordEncoding`: The encoding of the code.

## Theorems

* `encode_eq_finished`, `encode_eq_detached`: A state that is stored as one of the constants is that
  state.
* `Ptr.and_tag`: An aligned address has its low bits clear.
* `Ptr.bit_and_tag`: No bit is set both in the address and in a tag.
* `Ptr.or_tag_and_not`: Setting a tag and clearing it again gives the address back.
* `Ptr.or_tag_and`: A tag bit of a tagged address is a bit of the tag.
* `Ptr.or_tag_ne_small`: A tagged address is none of the three small numbers.
* `Ptr.ne_small`, `decode_addr`, `decode_async_waker`, `decode_async_joiner`: What a tagged address
  decodes to.
* `decode_encode`: Decoding gives back the state that was stored.
-/

namespace Cmpth

namespace Join

/-- The contents of an `AtomicUsize`. -/
abbrev Word := BitVec 64

/-- Nobody has joined, and the task has not finished. -/
def running : Word := 0
/-- The result can be taken. -/
def finished : Word := 1
/-- The handle has been dropped. -/
def detached : Word := 2
/-- The tag of a boxed waker. -/
def asyncTag : Word := 1
/-- The tag of an async joiner. -/
def asyncJoinerTag : Word := 2

/-- The address of a descriptor or of a boxed `Waker`. -/
structure Ptr where
  addr : Word
  aligned : addr &&& 7 = 0
  ne_zero : addr ≠ 0
  deriving DecidableEq

/-- Who, if anyone, waits for the task. -/
inductive JoinState (P : Type*) where
  | running
  | finished
  | detached
  | syncJoiner (j : P)
  | asyncWaker (b : P)
  | asyncJoiner (j : P)
  deriving DecidableEq, Repr

/-- The state with its pointer replaced. -/
def JoinState.map {P A : Type*} (f : P → A) : JoinState P → JoinState A
  | .running => .running
  | .finished => .finished
  | .detached => .detached
  | .syncJoiner j => .syncJoiner (f j)
  | .asyncWaker b => .asyncWaker (f b)
  | .asyncJoiner j => .asyncJoiner (f j)

/-- The word that is stored for a state. -/
def encode : JoinState Ptr → Word
  | .running => running
  | .finished => finished
  | .detached => detached
  | .syncJoiner j => j.addr
  | .asyncWaker b => b.addr ||| asyncTag
  | .asyncJoiner j => j.addr ||| asyncJoinerTag

/-- `decode_join_state`. -/
def decodeJoinState (v : Word) : JoinState Word :=
  if v = running then .running
  else if v = finished then .finished
  else if v = detached then .detached
  else if v &&& asyncTag ≠ 0 then .asyncWaker (v &&& ~~~asyncTag)
  else if v &&& asyncJoinerTag ≠ 0 then .asyncJoiner (v &&& ~~~asyncJoinerTag)
  else .syncJoiner v

/-- Words that store join states. A `P` is a pointer that may be stored, an `A`
    the address that is read back. -/
structure Encoding (V P A : Type*) where
  addr : P → A
  encode : JoinState P → V
  decode : V → JoinState A
  decode_encode (st : JoinState P) : decode (encode st) = st.map addr

namespace Encoding

variable {V P A : Type*} (E : Encoding V P A)

theorem encode_eq_finished {st : JoinState P} :
    E.encode st = E.encode .finished ↔ st = .finished := by
  refine ⟨fun h => ?_, fun h => by rw [h]⟩
  have hd : st.map E.addr = .finished := by rw [← E.decode_encode, h, E.decode_encode]; rfl
  cases st <;> simp only [JoinState.map, reduceCtorEq] at hd ⊢

theorem encode_eq_detached {st : JoinState P} :
    E.encode st = E.encode .detached ↔ st = .detached := by
  refine ⟨fun h => ?_, fun h => by rw [h]⟩
  have hd : st.map E.addr = .detached := by rw [← E.decode_encode, h, E.decode_encode]; rfl
  cases st <;> simp only [JoinState.map, reduceCtorEq] at hd ⊢

end Encoding

/-- An aligned address has its low bits clear. -/
theorem Ptr.and_tag (p : Ptr) {t : Word} (ht : t &&& 7 = t) : p.addr &&& t = 0 := by
  rw [← ht, BitVec.and_comm t 7, ← BitVec.and_assoc, p.aligned]
  exact BitVec.zero_and

/-- No bit is set both in the address and in a tag. -/
theorem Ptr.bit_and_tag (p : Ptr) {t : Word} (ht : t &&& 7 = t) (i : Nat) (hi : i < 64) :
    (p.addr[i] && t[i]) = false := by
  rw [← BitVec.getElem_and, p.and_tag ht]
  exact BitVec.getElem_zero hi

/-- Setting a tag and clearing it again gives the address back. -/
theorem Ptr.or_tag_and_not (p : Ptr) {t : Word} (ht : t &&& 7 = t) :
    (p.addr ||| t) &&& ~~~t = p.addr := by
  ext i hi
  have hb := p.bit_and_tag ht i hi
  simp only [BitVec.getElem_and, BitVec.getElem_or, BitVec.getElem_not]
  revert hb
  cases p.addr[i] <;> cases t[i] <;> simp

/-- A tag bit of a tagged address is a bit of the tag. -/
theorem Ptr.or_tag_and (p : Ptr) (t : Word) {u : Word} (hu : u &&& 7 = u) :
    (p.addr ||| t) &&& u = t &&& u := by
  ext i hi
  have hb := p.bit_and_tag hu i hi
  simp only [BitVec.getElem_and, BitVec.getElem_or]
  revert hb
  cases p.addr[i] <;> cases t[i] <;> cases u[i] <;> simp

/-- A tagged address is none of the three small numbers. -/
theorem Ptr.or_tag_ne_small (p : Ptr) (t : Word) {v : Word} (hv : v &&& ~~~7 = 0) :
    p.addr ||| t ≠ v := by
  intro h
  have hand : (p.addr ||| t) &&& ~~~7 = 0 := by rw [h, hv]
  refine p.ne_zero ?_
  ext i hi
  have hb : ((p.addr ||| t) &&& ~~~7)[i] = false := by
    rw [hand]
    exact BitVec.getElem_zero hi
  have ha : (p.addr[i] && (7 : Word)[i]) = false := p.bit_and_tag (by decide) i hi
  have hz : (0 : Word)[i] = false := BitVec.getElem_zero hi
  simp only [BitVec.getElem_and, BitVec.getElem_or, BitVec.getElem_not] at hb
  rw [hz]
  revert ha hb
  cases p.addr[i] <;> cases t[i] <;> cases (7 : Word)[i] <;> simp

theorem Ptr.ne_small (p : Ptr) {v : Word} (hv : v &&& ~~~7 = 0) : p.addr ≠ v := by
  have h := p.or_tag_ne_small 0 hv
  rwa [show p.addr ||| (0 : Word) = p.addr from BitVec.or_zero] at h

theorem decode_addr (p : Ptr) : decodeJoinState p.addr = .syncJoiner p.addr := by
  unfold decodeJoinState
  rw [if_neg (p.ne_small (by decide)), if_neg (p.ne_small (by decide)),
    if_neg (p.ne_small (by decide)), p.and_tag (t := asyncTag) (by decide),
    p.and_tag (t := asyncJoinerTag) (by decide)]
  rfl

theorem decode_async_waker (p : Ptr) :
    decodeJoinState (p.addr ||| asyncTag) = .asyncWaker p.addr := by
  unfold decodeJoinState
  rw [if_neg (p.or_tag_ne_small _ (by decide)), if_neg (p.or_tag_ne_small _ (by decide)),
    if_neg (p.or_tag_ne_small _ (by decide)), p.or_tag_and _ (u := asyncTag) (by decide),
    p.or_tag_and_not (by decide)]
  rfl

theorem decode_async_joiner (p : Ptr) :
    decodeJoinState (p.addr ||| asyncJoinerTag) = .asyncJoiner p.addr := by
  unfold decodeJoinState
  rw [if_neg (p.or_tag_ne_small _ (by decide)), if_neg (p.or_tag_ne_small _ (by decide)),
    if_neg (p.or_tag_ne_small _ (by decide)), p.or_tag_and _ (u := asyncTag) (by decide),
    p.or_tag_and _ (u := asyncJoinerTag) (by decide), p.or_tag_and_not (by decide)]
  rfl

/-- Decoding gives back the state that was stored, with its pointer. -/
theorem decode_encode (st : JoinState Ptr) : decodeJoinState (encode st) = st.map Ptr.addr := by
  cases st with
  | running | finished | detached => rfl
  | syncJoiner j => exact decode_addr j
  | asyncWaker b => exact decode_async_waker b
  | asyncJoiner j => exact decode_async_joiner j

/-- The encoding that `join_state` uses. -/
def wordEncoding : Encoding Word Ptr Word where
  addr := Ptr.addr
  encode := encode
  decode := decodeJoinState
  decode_encode := decode_encode

end Join

end Cmpth

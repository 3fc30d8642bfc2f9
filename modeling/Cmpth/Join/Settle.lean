import Cmpth.Join.Protocol

/-!
# Settling the Join

The invariant of the join protocol and what follows from it for either side.

The task's program counter is grouped into phases. Until `FINISHED` is
published the word mirrors what the handle is doing; a joiner that is parked or
a handle that is gone stays so, which is why the exit path may act on a plain
load of either. From the publication on, the word no longer changes, and the
phase says who has to act next.

## Main definitions

* `Phase`: How far the exit has come, as far as the handle can tell.
* `Fits`: The phase, the handle and the word agree.
* `Accounted`: Who has taken the result and freed the descriptor by now.
* `Inv`: The invariant.

## Theorems

* `InvAt.decode`, `InvAt.word_finished`: What the word decodes to.
* `InvAt.of_active`: A handle that may still act leaves two phases.
* `InvAt.nothing_taken`: Nothing has been reclaimed while the handle may still act.
* `accounted_of_active`, `waiting_of_active`, `active_of_waits`: What is accounted for while the
  handle is in use.
* `one_none`, `count_apply`: Counts of one.
* `InvAt.enter`: A step of the task that leaves the word alone.
* `InvAt.setTask`: A step of the task that the handle cannot tell.
* `InvAt.setHandle`: A step of the handle that leaves the word alone.
* `Boxes.setHandle`: The handle goes on with the same box.
* `holders_def`: Rewrites the places a box may be held in.
* `phase_leave`, `box_leave`, `wrote_leave`, `phase_exit`, `box_exit`, `wrote_exit`: Where an exit
  begins, and where it leaves.
* `settle_box`: The swap takes a box over from the word.
* `finds_of_waits`: A handle that was free to act when `FINISHED` came finds it so.
* `accounted_publish`: Once `FINISHED` is published to a handle that may act, nobody has reclaimed
  anything yet.
* `inv_write`, `inv_commit`, `inv_swap`, `inv_resume`, `inv_wake`, `inv_claim`, `inv_dropResult`,
  `inv_free`: The steps of the task.
* `waits_detached`, `waits_syncJoiner`, `accounted_swap`: What the word tells the task about the
  handle.
* `fits_swap`: What the swap found says which phase comes next.
* `inv_dropReplaced`, `inv_take`, `inv_reclaim`, `inv_box`, `inv_unbox`, `inv_load`, `inv_exchange`:
  The steps of the handle.
* `inv_register`: A compare and exchange that succeeds: `FINISHED` cannot have been published, for
  the loop does not try to replace it.
* `InvAt.move`: A step between two points that hold the same box.
* `InvAt.refuse`: The handle reads `FINISHED`.
* `InvAt.refused`: An exchange that finds `FINISHED`.
* `InvAt.loaded`: What was loaded is what the word is, until `FINISHED` comes.
* `inv_handoffLoad`, `inv_abandonedLoad`: The loads at the end of a thread.
* `inv_effect`, `inv_next`: Every action keeps the invariant.
* `inv_init`, `inv_reachable`: It holds of every reachable state.
* `Accounted.one_side`: One side reclaims, the result first.
* `InvAt.written_of_taken`: Whoever takes the result finds it written, unless it is a thread that
  drops a value it never stored.
* `InvAt.resumed_of_done`: A task that is through leaves no joiner waiting.
* `InvAt.reclaimed`, `InvAt.unboxed`: What has been reclaimed when both sides are through.
* `join_protocol`: The result and the descriptor are reclaimed once, by one side; the joiner is
  resumed once; no boxed waker is lost or used twice.
* `join_protocol_boxedWaker`: A handle that awaits with a foreign waker.
* `discarded_unwritten`: A thread that finds its handle gone frees its descriptor without having
  written the result.
-/

namespace Cmpth

namespace Join

variable {V P A : Type*}

/-- How far the exit has come, as far as the handle can tell. -/
inductive Phase (A : Type*) where
  | unpublished
  /-- The joiner in the word gets the processor. -/
  | handing (j : A)
  /-- The handle was dropped. -/
  | dropping (published : Bool)
  | freeing (published : Bool)
  | discarded
  | resuming (j : A)
  | published
  | broken

/-- How far the exit has come, from where the task is. -/
def TaskPc.phase : TaskPc A → Phase A
  | .idle | .running | .handoff | .abandoned | .write none | .swap | .park
  | .dropWaker false => .unpublished
  | .write (some j) | .commit j => .handing j
  | .dropResult p => .dropping p
  | .free p => .freeing p
  | .done false => .discarded
  | .resume j => .resuming j
  | .wake _ | .claim _ | .dropWaker true | .done true => .published
  | .doubleExit => .broken

/-- The task has written its result. -/
def TaskPc.wrote : TaskPc A → Bool
  | .commit _ | .swap | .resume _ | .wake _ | .claim _ | .dropResult true | .free true
  | .dropWaker true | .done true => true
  | .idle | .running | .handoff | .abandoned | .write _ | .dropResult false | .free false
  | .dropWaker false | .park | .done false | .doubleExit => false

/-- The box the task has taken out of the word. -/
def TaskPc.box : TaskPc A → Option A
  | .wake b => some b
  | _ => none

namespace HandlePc

variable (E : Encoding V P A)

/-- The box the handle has made and not yet registered. -/
def box : HandlePc V P → Option A
  | .load (.waker b) | .exchange (.waker b) _ | .unbox b => some (E.addr b)
  | _ => none

/-- The joiner that waits. -/
def waiting : HandlePc V P → Option A
  | .parked j => some (E.addr j)
  | _ => none

/-- The handle exists and no operation has settled its fate. -/
def active : HandlePc V P → Bool
  | .held | .isFinished _ | .load _ | .loadWaker | .boxing _ | .exchange .. | .unbox _
  | .take => true
  | .parked _ | .reclaim | .gone => false

/-- An operation is under way that may still register something. -/
def busy : HandlePc V P → Bool
  | .isFinished _ | .load _ | .loadWaker | .boxing _ | .exchange .. | .unbox _ => true
  | .held | .parked _ | .take | .reclaim | .gone => false

/-- The states in which `join` has not registered a joiner. -/
def unjoined : HandlePc V P → Bool
  | .held | .isFinished _ | .load _ | .loadWaker | .boxing _ | .exchange .. | .unbox _ => true
  | .parked _ | .take | .reclaim | .gone => false

end HandlePc

/-- Nothing in the word keeps the handle from acting. -/
def JoinState.Open : JoinState P → Prop
  | .running | .asyncWaker _ | .asyncJoiner _ => True
  | .finished | .detached | .syncJoiner _ => False

/-- The handle, while the word is unpublished. -/
def Waits (E : Encoding V P A) (st : JoinState P) : HandlePc V P → Prop
  | .held | .isFinished _ | .load _ | .loadWaker => st.Open
  | .exchange _ cur | .boxing cur => st.Open ∧ cur = E.encode st
  | .parked j => st = .syncJoiner j
  | .gone => st = .detached
  | .take | .reclaim | .unbox _ => False

/-- The handle, once `FINISHED` is published and no joiner waits. -/
def Finds (E : Encoding V P A) : HandlePc V P → Prop
  | .exchange _ cur | .boxing cur => cur ≠ E.encode .finished
  | .parked _ => False
  | .held | .isFinished _ | .load _ | .loadWaker | .unbox _ | .take | .reclaim | .gone => True

/-- The phase, the handle and the word agree. -/
def Fits (E : Encoding V P A) (st : JoinState P) (h : HandlePc V P) : Phase A → Prop
  | .unpublished => st ≠ .finished ∧ Waits E st h
  | .handing a => ∃ j, st = .syncJoiner j ∧ h = .parked j ∧ E.addr j = a
  | .dropping false | .freeing false | .discarded => st = .detached ∧ h = .gone
  | .dropping true | .freeing true => st = .finished ∧ h = .gone
  | .resuming a => ∃ j, st = .finished ∧ h = .parked j ∧ E.addr j = a
  | .published => st = .finished ∧ Finds E h
  | .broken => False

/-- Who has taken the result and freed the descriptor by now. -/
def Accounted (takes frees : List Side) : Phase A → HandlePc V P → Prop
  | .freeing _, _ => takes = [.task] ∧ frees = []
  | .discarded, _ => takes = [.task] ∧ frees = [.task]
  | .published, .gone => ∃ side, takes = [side] ∧ frees = [side]
  | .published, .reclaim => takes = [.handle] ∧ frees = []
  | _, _ => takes = [] ∧ frees = []

variable [DecidableEq A]

/-- One, if the address is there. -/
def one (a : A) (o : Option A) : Nat :=
  if o = some a then 1 else 0

/-- In how many places a box at this address is held. -/
def holders (E : Encoding V P A) (s : State V P A) (a : A) : Nat :=
  one a (E.decode s.word).box + one a s.task.box + one a (s.handle.box E) + one a s.replaced

/-- Boxes in use are the ones held, each in one place. -/
def Boxes (E : Encoding V P A) (s : State V P A) : Prop :=
  ∀ a, s.boxed a = s.unboxed a + holders E s a ∧ holders E s a ≤ 1

/-- The invariant, for the state that the word stands for. -/
structure InvAt (E : Encoding V P A) (s : State V P A) (st : JoinState P) : Prop where
  word : s.word = E.encode st
  fits : Fits E st s.handle s.task.phase
  accounted : Accounted s.takes s.frees s.task.phase s.handle
  written : s.task.wrote = true → s.written = true
  joined : ∀ a, s.registered a = s.resumed a + one a (s.handle.waiting E)
  unjoined : s.handle.unjoined = true → ∀ a, s.registered a = 0
  once : ∀ a, s.registered a ≤ 1
  boxes : Boxes E s
  replaced : s.handle.busy = true → s.replaced = none

/-- The invariant. -/
def Inv (E : Encoding V P A) (s : State V P A) : Prop :=
  ∃ st, InvAt E s st

variable {E : Encoding V P A} {s : State V P A} {st : JoinState P}

theorem InvAt.decode (h : InvAt E s st) : E.decode s.word = st.map E.addr := by
  rw [h.word, E.decode_encode]

theorem InvAt.word_finished (h : InvAt E s st) : s.word = E.encode .finished ↔ st = .finished := by
  rw [h.word, E.encode_eq_finished]

/-- A handle that may still act leaves two phases. -/
theorem InvAt.of_active (h : InvAt E s st) (ha : s.handle.active = true) :
    (s.task.phase = .unpublished ∧ st ≠ .finished ∧ Waits E st s.handle) ∨
      (s.task.phase = .published ∧ st = .finished ∧ Finds E s.handle) := by
  have hf := h.fits
  -- In the other phases the fit excludes a handle that may act.
  cases hp : s.task.phase with
  | unpublished => rw [hp] at hf; exact .inl ⟨rfl, hf⟩
  | published => rw [hp] at hf; exact .inr ⟨rfl, hf⟩
  | handing a | resuming a =>
      rw [hp] at hf
      rcases hf with ⟨j, -, hh, -⟩
      rw [hh] at ha
      exact absurd ha (by simp only [HandlePc.active, Bool.false_eq_true, not_false_eq_true])
  | dropping p | freeing p =>
      rw [hp] at hf
      cases p <;> rw [hf.2] at ha <;>
        exact absurd ha (by simp only [HandlePc.active, Bool.false_eq_true, not_false_eq_true])
  | discarded =>
      rw [hp] at hf
      rw [hf.2] at ha
      exact absurd ha (by simp only [HandlePc.active, Bool.false_eq_true, not_false_eq_true])
  | broken => rw [hp] at hf; exact hf.elim

/-- Nothing has been reclaimed while the handle may still act. -/
theorem InvAt.nothing_taken (h : InvAt E s st) (ha : s.handle.active = true) :
    s.takes = [] ∧ s.frees = [] := by
  have hc := h.accounted
  rcases h.of_active ha with ⟨hp, -⟩ | ⟨hp, -⟩ <;> rw [hp] at hc <;> revert hc ha <;>
    cases s.handle <;> simp [Accounted, HandlePc.active]

omit [DecidableEq A] in
theorem accounted_of_active {takes frees : List Side} {h h' : HandlePc V P} {p : Phase A}
    (hc : Accounted takes frees p h) (ha : h.active = true) (ha' : h'.active = true) :
    Accounted takes frees p h' := by
  cases p <;> cases h <;> cases h' <;>
    first
    | exact hc
    | simp only [HandlePc.active, Bool.false_eq_true] at ha ha'

omit [DecidableEq A] in
theorem waiting_of_active {h : HandlePc V P} (ha : h.active = true) : h.waiting E = none := by
  cases h <;> first | rfl | simp only [HandlePc.active, Bool.false_eq_true] at ha

theorem one_none (a : A) : one a none = 0 := if_neg (by simp only [reduceCtorEq, not_false_eq_true])

theorem count_apply (f : A → Nat) (b a : A) : count f b a = f a + one a (some b) := by
  unfold count one
  by_cases hab : a = b
  · rw [hab, Function.update_self, if_pos rfl]
  · rw [Function.update_of_ne hab, if_neg (by rw [Option.some.injEq]; exact Ne.symm hab)]
    rfl

/-- A step of the task that leaves the word alone. -/
theorem InvAt.enter (h : InvAt E s st) {t : TaskPc A} {w : Bool}
    (hf : Fits E st s.handle t.phase) (hc : Accounted s.takes s.frees t.phase s.handle)
    (hb : t.box = s.task.box) (hw : t.wrote = true → w = true) :
    InvAt E { s with task := t, written := w } st where
  word := h.word
  fits := hf
  accounted := hc
  written := hw
  joined := h.joined
  unjoined := h.unjoined
  once := h.once
  boxes := by
    intro a
    have hh : holders E { s with task := t, written := w } a = holders E s a := by
      simp only [holders, hb]
    rw [hh]
    exact h.boxes a
  replaced := h.replaced

/-- A step of the task that the handle cannot tell. -/
theorem InvAt.setTask (h : InvAt E s st) {t t' : TaskPc A} {w : Bool} (ht : s.task = t)
    (hp : t'.phase = t.phase) (hb : t'.box = t.box) (hw : t'.wrote = true → w = true) :
    InvAt E { s with task := t', written := w } st := by
  refine h.enter ?_ ?_ ?_ hw <;> simp only [hp, hb, ← ht]
  · exact h.fits
  · exact h.accounted

/-- A step of the handle that leaves the word alone. -/
theorem InvAt.setHandle (h : InvAt E s st) {h' : HandlePc V P} {bx ub : A → Nat}
    (ha : s.handle.active = true) (ha' : h'.active = true)
    (hwait : st ≠ .finished → Waits E st s.handle → Waits E st h')
    (hfind : st = .finished → Finds E s.handle → Finds E h')
    (hbusy : h'.busy = true → s.replaced = none)
    (hjoin : h'.unjoined = true → s.handle.unjoined = true)
    (hbx : Boxes E { s with handle := h', boxed := bx, unboxed := ub }) :
    InvAt E { s with handle := h', boxed := bx, unboxed := ub } st where
  word := h.word
  fits := by
    rcases h.of_active ha with ⟨hp, hst, hw⟩ | ⟨hp, hst, hf⟩ <;> simp only [hp]
    · exact ⟨hst, hwait hst hw⟩
    · exact ⟨hst, hfind hst hf⟩
  accounted := accounted_of_active h.accounted ha ha'
  written := h.written
  joined := by
    intro a
    have hj := h.joined a
    rw [waiting_of_active ha] at hj
    rw [waiting_of_active ha']
    exact hj
  unjoined := fun hu => h.unjoined (hjoin hu)
  once := h.once
  boxes := hbx
  replaced := hbusy

theorem Boxes.setHandle (h : Boxes E s) {h' : HandlePc V P} (hb : h'.box E = s.handle.box E) :
    Boxes E { s with handle := h' } := by
  intro a
  have hh : holders E { s with handle := h' } a = holders E s a := by simp only [holders, hb]
  rw [hh]
  exact h a

/-- Rewrites the places a box may be held in. -/
theorem holders_def (s : State V P A) (a : A) :
    holders E s a = one a (E.decode s.word).box + one a s.task.box +
      one a (s.handle.box E) + one a s.replaced := rfl

omit [DecidableEq A] in
@[simp] theorem phase_leave (k : Kind) : (k.leave : TaskPc A).phase = .published := by
  cases k <;> rfl

omit [DecidableEq A] in
@[simp] theorem box_leave (k : Kind) : (k.leave : TaskPc A).box = none := by
  cases k <;> rfl

omit [DecidableEq A] in
@[simp] theorem wrote_leave (k : Kind) : (k.leave : TaskPc A).wrote = true := by
  cases k <;> rfl

omit [DecidableEq A] in
@[simp] theorem phase_exit (k : Kind) : (k.exit : TaskPc A).phase = .unpublished := by
  cases k <;> rfl

omit [DecidableEq A] in
@[simp] theorem box_exit (k : Kind) : (k.exit : TaskPc A).box = none := by
  cases k <;> rfl

omit [DecidableEq A] in
@[simp] theorem wrote_exit (k : Kind) : (k.exit : TaskPc A).wrote = false := by
  cases k <;> rfl

omit [DecidableEq A] in
/-- The swap takes a box over from the word. -/
theorem settle_box (k : Kind) (d : JoinState A) : (settle k d).box = d.box := by
  cases d <;> first | rfl | exact box_leave k

omit [DecidableEq A] in
/-- A handle that was free to act when `FINISHED` came finds it so. -/
theorem finds_of_waits {h : HandlePc V P} (ho : st.Open) (hw : Waits E st h) : Finds E h := by
  have hne : st ≠ .finished := fun he => by rw [he] at ho; exact ho
  cases h with
  | parked j => rw [show st = .syncJoiner j from hw] at ho; exact ho
  | boxing cur | exchange op cur =>
      intro hc
      exact hne (E.encode_eq_finished.mp (hw.2.symm.trans hc))
  | held | isFinished j | load op | loadWaker | unbox b | take | reclaim | gone => trivial

omit [DecidableEq A] in
theorem active_of_waits {h : HandlePc V P} (ho : st.Open) (hw : Waits E st h) :
    h.active = true := by
  cases h with
  | parked j => rw [show st = .syncJoiner j from hw] at ho; exact ho.elim
  | gone => rw [show st = .detached from hw] at ho; exact ho.elim
  | reclaim => exact hw.elim
  | held | isFinished j | load op | loadWaker | boxing cur | exchange op cur | unbox b
  | take => rfl

omit [DecidableEq A] in
/-- Once `FINISHED` is published to a handle that may act, nobody has reclaimed
    anything yet. -/
theorem accounted_publish {h : HandlePc V P} {takes frees : List Side} (ha : h.active = true)
    (hn : takes = [] ∧ frees = []) :
    Accounted takes frees (.published : Phase A) h := by
  cases h <;> first | exact hn | simp only [HandlePc.active, Bool.false_eq_true] at ha

theorem inv_write (h : InvAt E s st) {j : Option A} (ht : s.task = .write j) :
    InvAt E { s with task := j.elim .swap .commit, written := true } st := by
  refine h.setTask ht ?_ ?_ (fun _ => rfl) <;> cases j <;> rfl

theorem inv_commit (h : InvAt E s st) {a : A} (ht : s.task = .commit a) {g : Bool} :
    InvAt E { s with word := E.encode .finished, task := .resume a, gaveUp := g } .finished := by
  have hf := h.fits
  have hc := h.accounted
  have hw := h.written
  rw [ht] at hf hc hw
  rcases hf with ⟨j, hst, hh, hj⟩
  refine ⟨rfl, ⟨j, rfl, hh, hj⟩, ?_, fun _ => hw rfl, h.joined, h.unjoined, h.once, ?_,
    h.replaced⟩
  · rw [hh] at hc
    simp only [hh]
    exact hc
  · intro b
    have hb := h.boxes b
    rw [holders_def, h.decode, hst, ht] at hb
    rw [holders_def, E.decode_encode]
    exact hb

omit [DecidableEq A] in
theorem waits_detached {h : HandlePc V P} (hw : Waits E .detached h) : h = .gone := by
  cases h with
  | gone => rfl
  | parked j => cases hw
  | boxing cur | exchange op cur => exact hw.1.elim
  | held | isFinished j | load op | loadWaker | unbox b | take | reclaim => exact hw.elim

omit [DecidableEq A] in
theorem waits_syncJoiner {h : HandlePc V P} {j : P} (hw : Waits E (.syncJoiner j) h) :
    h = .parked j := by
  cases h with
  | parked j' => cases hw; rfl
  | gone => cases hw
  | boxing cur | exchange op cur => exact hw.1.elim
  | held | isFinished j | load op | loadWaker | unbox b | take | reclaim => exact hw.elim

omit [DecidableEq A] in
/-- What the swap found says which phase comes next. -/
theorem fits_swap {h : HandlePc V P} (k : Kind) (hst : st ≠ .finished) (hw : Waits E st h) :
    Fits E .finished h (settle k (st.map E.addr)).phase := by
  have hopen : st.Open → Fits E .finished h .published :=
    fun ho => ⟨rfl, finds_of_waits ho hw⟩
  cases st with
  | running =>
      simp only [JoinState.map, settle, phase_leave]
      exact hopen trivial
  | asyncWaker b | asyncJoiner j => exact hopen trivial
  | finished => exact absurd rfl hst
  | detached => exact ⟨rfl, waits_detached hw⟩
  | syncJoiner j => exact ⟨j, rfl, waits_syncJoiner hw, rfl⟩

omit [DecidableEq A] in
theorem accounted_swap {h : HandlePc V P} {takes frees : List Side} (k : Kind)
    (hst : st ≠ .finished) (hw : Waits E st h) (hn : takes = [] ∧ frees = []) :
    Accounted takes frees (settle k (st.map E.addr)).phase h := by
  have hopen : st.Open → Accounted takes frees (.published : Phase A) h :=
    fun ho => accounted_publish (active_of_waits ho hw) hn
  cases st with
  | running =>
      simp only [JoinState.map, settle, phase_leave]
      exact hopen trivial
  | asyncWaker b | asyncJoiner j => exact hopen trivial
  | finished => exact absurd rfl hst
  | detached | syncJoiner j => exact hn

theorem inv_swap (h : InvAt E s st) (ht : s.task = .swap) {g : Bool} :
    InvAt E { s with
      word := E.encode .finished
      task := settle s.kind (E.decode s.word)
      gaveUp := g } .finished := by
  have hf := h.fits
  have hc := h.accounted
  have hw := h.written
  rw [ht] at hf hc hw
  -- The swap reads the word, and leaves `FINISHED` in it.
  rcases hf with ⟨hst, hwait⟩
  refine ⟨rfl, ?_, ?_, fun _ => hw rfl, h.joined, h.unjoined, h.once, ?_, h.replaced⟩
  · simp only [h.decode]
    exact fits_swap s.kind hst hwait
  · simp only [h.decode]
    exact accounted_swap s.kind hst hwait hc
  · intro b
    have hb := h.boxes b
    rw [holders_def, ht] at hb
    rw [holders_def, E.decode_encode]
    simp only [settle_box]
    simp only [TaskPc.box, JoinState.map, JoinState.box, one_none] at hb ⊢
    omega

theorem inv_resume (h : InvAt E s st) {a : A} (ht : s.task = .resume a) :
    InvAt E { s with
      task := s.kind.leave
      resumed := count s.resumed a
      handle := match s.handle with
        | .parked _ => .take
        | h => h } st := by
  have hf := h.fits
  have hc := h.accounted
  have hw := h.written
  rw [ht] at hf hc hw
  -- The joiner is parked, since its word has been replaced.
  rcases hf with ⟨j, hst, hh, hj⟩
  rw [hh] at hc
  simp only [hh]
  refine ⟨h.word, ?_, ?_, fun _ => hw rfl, ?_, ?_, h.once, ?_, ?_⟩
  · simp only [phase_leave]
    exact ⟨hst, trivial⟩
  · simp only [phase_leave]
    exact hc
  · -- The joiner that was counted as waiting is now counted as resumed.
    intro b
    have hb := h.joined b
    rw [hh] at hb
    simp only [HandlePc.waiting, hj] at hb
    simp only [count_apply, HandlePc.waiting, one_none]
    omega
  · intro hu
    simp only [HandlePc.unjoined, Bool.false_eq_true] at hu
  · intro b
    have hb := h.boxes b
    rw [holders_def, ht, hh] at hb
    rw [holders_def]
    simp only [box_leave]
    exact hb
  · intro hu
    simp only [HandlePc.busy, Bool.false_eq_true] at hu

theorem inv_wake (h : InvAt E s st) {b : A} (ht : s.task = .wake b) :
    InvAt E { s with task := s.kind.leave, unboxed := count s.unboxed b } st := by
  have hf := h.fits
  have hc := h.accounted
  have hw := h.written
  rw [ht] at hf hc hw
  refine ⟨h.word, ?_, ?_, fun _ => hw rfl, h.joined, h.unjoined, h.once, ?_, h.replaced⟩
  · simp only [phase_leave]
    exact hf
  · simp only [phase_leave]
    exact hc
  · intro a
    have ha := h.boxes a
    rw [holders_def, ht] at ha
    rw [holders_def]
    simp only [TaskPc.box] at ha
    simp only [box_leave, count_apply, one_none]
    omega

theorem inv_claim (h : InvAt E s st) {j : A} (ht : s.task = .claim j) :
    InvAt E { s with task := s.kind.leave } st :=
  h.setTask ht (phase_leave s.kind) (box_leave s.kind) (fun _ => h.written (by rw [ht]; rfl))

theorem inv_dropResult (h : InvAt E s st) {p : Bool} (ht : s.task = .dropResult p) :
    InvAt E { s with task := .free p, takes := .task :: s.takes } st := by
  have hf := h.fits
  have hc := h.accounted
  have hw := h.written
  rw [ht] at hf hc hw
  refine ⟨h.word, ?_, ?_, ?_, h.joined, h.unjoined, h.once, ?_, h.replaced⟩
  · cases p <;> exact hf
  · exact ⟨by simp only [hc.1], hc.2⟩
  · cases p <;> exact hw
  · intro a
    have ha := h.boxes a
    rw [holders_def, ht] at ha
    exact ha

theorem inv_free (h : InvAt E s st) {p : Bool} (ht : s.task = .free p) {g : Bool} :
    InvAt E { s with
      task := if p then s.kind.leave else .done false
      frees := .task :: s.frees
      gaveUp := g } st := by
  have hf := h.fits
  have hc := h.accounted
  have hw := h.written
  rw [ht] at hf hc hw
  -- A published result leaves the freeing to the handle's side, a discarded one to the task's.
  refine ⟨h.word, ?_, ?_, ?_, h.joined, h.unjoined, h.once, ?_, h.replaced⟩
  · cases p with
    | false => exact hf
    | true =>
        simp only [if_true, phase_leave, hf.2]
        exact ⟨hf.1, trivial⟩
  · cases p with
    | false => exact ⟨hc.1, by simp only [hc.2]⟩
    | true =>
        simp only [if_true, phase_leave, hf.2]
        exact ⟨.task, hc.1, by simp only [hc.2]⟩
  · cases p with
    | false => exact fun he => absurd he (by simp [TaskPc.wrote])
    | true => exact fun _ => hw rfl
  · intro a
    have ha := h.boxes a
    rw [holders_def, ht] at ha
    rw [holders_def]
    cases p with
    | false => exact ha
    | true =>
        simp only [if_true, box_leave]
        exact ha

theorem inv_dropReplaced (h : InvAt E s st) {b : A} (hr : s.replaced = some b) :
    InvAt E { s with replaced := none, unboxed := count s.unboxed b } st := by
  refine ⟨h.word, h.fits, h.accounted, h.written, h.joined, h.unjoined, h.once, ?_, fun _ => rfl⟩
  intro a
  have ha := h.boxes a
  rw [holders_def, hr] at ha
  rw [holders_def]
  simp only [count_apply, one_none]
  omega

theorem inv_take (h : InvAt E s st) (hh : s.handle = .take) :
    InvAt E { s with handle := .reclaim, takes := .handle :: s.takes } st := by
  have hact : s.handle.active = true := by rw [hh]; rfl
  rcases h.nothing_taken hact with ⟨ht, hf⟩
  -- The handle got here by reading `FINISHED`.
  rcases h.of_active hact with ⟨-, -, hw⟩ | ⟨hp, hst, -⟩
  · rw [hh] at hw
    exact hw.elim
  refine ⟨h.word, ?_, ?_, h.written, ?_, ?_, h.once, ?_, ?_⟩
  · simp only [hp]
    exact ⟨hst, trivial⟩
  · simp only [hp, ht, hf]
    exact ⟨rfl, rfl⟩
  · have hj := h.joined
    rw [hh] at hj
    exact hj
  · exact fun hu => absurd hu (by simp [HandlePc.unjoined])
  · have hb := h.boxes
    simp only [Boxes, holders, hh] at hb ⊢
    exact hb
  · exact fun hu => absurd hu (by simp [HandlePc.busy])

theorem inv_reclaim (h : InvAt E s st) (hh : s.handle = .reclaim) :
    InvAt E { s with handle := .gone, frees := .handle :: s.frees } st := by
  have hf := h.fits
  have hc := h.accounted
  -- Only the phase after publication lets a handle be here.
  have hp : s.task.phase = .published := by
    rw [hh] at hf
    cases hp : s.task.phase with
    | published => rfl
    | unpublished => rw [hp] at hf; exact hf.2.elim
    | handing a | resuming a => rw [hp] at hf; rcases hf with ⟨j, -, hj, -⟩; cases hj
    | dropping p | freeing p => rw [hp] at hf; cases p <;> cases hf.2
    | discarded => rw [hp] at hf; cases hf.2
    | broken => rw [hp] at hf; exact hf.elim
  rw [hp, hh] at hf hc
  refine ⟨h.word, ?_, ?_, h.written, ?_, ?_, h.once, ?_, ?_⟩
  · simp only [hp]
    exact ⟨hf.1, trivial⟩
  · simp only [hp]
    exact ⟨.handle, hc.1, by simp only [hc.2]⟩
  · have hj := h.joined
    rw [hh] at hj
    exact hj
  · exact fun hu => absurd hu (by simp [HandlePc.unjoined])
  · have hb := h.boxes
    simp only [Boxes, holders, hh] at hb ⊢
    exact hb
  · exact fun hu => absurd hu (by simp [HandlePc.busy])

/-- A compare and exchange that succeeds: `FINISHED` cannot have been
    published, for the loop does not try to replace it. -/
theorem inv_register (h : InvAt E s st) {op : Op P} {cur : V} (hh : s.handle = .exchange op cur)
    (hcur : s.word = cur) :
    InvAt E { s with
      word := E.encode op.state
      handle := op.registered
      replaced := (E.decode cur).box
      registered := op.register E s.registered } op.state := by
  -- The handle is in use, so nothing has been taken yet.
  have hact : s.handle.active = true := by rw [hh]; rfl
  rcases h.nothing_taken hact with ⟨ht, hf⟩
  rcases h.of_active hact with ⟨hp, hst, hw⟩ | ⟨-, hst, hfd⟩
  swap
  · rw [hh] at hfd
    exact absurd (hcur.symm.trans (h.word_finished.mpr hst)) hfd
  -- A handle that has not joined has counted no joiner.
  have hnone : s.registered = fun _ => 0 := funext (h.unjoined (by rw [hh]; rfl))
  have hzero : ∀ a, s.resumed a = 0 := by
    intro a
    have hj := h.joined a
    rw [h.unjoined (by rw [hh]; rfl) a] at hj
    omega
  refine ⟨rfl, ?_, ?_, h.written, ?_, ?_, ?_, ?_, ?_⟩
  · simp only [hp]
    cases op <;> exact ⟨by simp [Op.state], by first | rfl | trivial⟩
  · simp only [hp]
    exact ⟨ht, hf⟩
  · intro a
    simp only [hnone, hzero]
    cases op with
    | join j => simp only [Op.register, count_apply, Op.registered, HandlePc.waiting]
    | await j | waker b | abandon => rfl
  · intro hu a
    cases op with
    | join j => simp only [Op.registered, HandlePc.unjoined, Bool.false_eq_true] at hu
    | await j | waker b | abandon => simp only [Op.register, hnone]
  · intro a
    simp only [hnone]
    cases op with
    | join j =>
        simp only [Op.register, count_apply, one]
        split <;> omega
    | await j | waker b | abandon => exact Nat.zero_le 1
  · -- The old box moves out of the word and the new one in.
    intro a
    have ha := h.boxes a
    rw [holders_def, hcur, hh, h.replaced (by rw [hh]; rfl)] at ha
    rw [holders_def, E.decode_encode]
    cases op <;>
      simp only [HandlePc.box, Op.registered, Op.state, JoinState.map, JoinState.box, one_none]
        at ha ⊢ <;> omega
  · intro hu
    cases op <;> simp only [Op.registered, HandlePc.busy, Bool.false_eq_true] at hu

/-- A step between two points that hold the same box. -/
theorem InvAt.move (h : InvAt E s st) {x h' : HandlePc V P} (hx : s.handle = x)
    (ha : x.active = true) (ha' : h'.active = true)
    (hwait : st ≠ .finished → Waits E st x → Waits E st h')
    (hfind : st = .finished → Finds E x → Finds E h') (hbusy : h'.busy = true → s.replaced = none)
    (hjoin : h'.unjoined = true → x.unjoined = true) (hb : h'.box E = x.box E) :
    InvAt E { s with handle := h' } st := by
  subst hx
  exact h.setHandle ha ha' hwait hfind hbusy hjoin (h.boxes.setHandle hb)

/-- The handle reads `FINISHED`. -/
theorem InvAt.refuse (h : InvAt E s st) {x h' : HandlePc V P} (hx : s.handle = x)
    (ha : x.busy = true) (ha' : h'.active = true) (hst : st = .finished) (hfind : Finds E h')
    (hjoin : h'.unjoined = true → x.unjoined = true) (hb : h'.box E = x.box E) :
    InvAt E { s with handle := h' } st := by
  refine h.move hx ?_ ha' (fun hne => absurd hst hne) (fun _ _ => hfind)
    (fun _ => h.replaced (by rw [hx]; exact ha)) hjoin hb
  cases x <;> first | rfl | cases ha

theorem InvAt.refused (h : InvAt E s st) {x : HandlePc V P} {op : Op P} (hx : s.handle = x)
    (ha : x.busy = true) (hj : x.unjoined = true) (hst : st = .finished)
    (hb : (HandlePc.load op : HandlePc V P).box E = x.box E) :
    InvAt E { s with handle := op.refused } st := by
  refine h.refuse hx ha ?_ hst ?_ (fun _ => hj) ?_
  · cases op <;> rfl
  · cases op <;> trivial
  · rw [← hb]
    cases op <;> rfl

/-- What was loaded is what the word is, until `FINISHED` comes. -/
theorem InvAt.loaded (h : InvAt E s st) {x h' : HandlePc V P} (hx : s.handle = x)
    (ha : x.busy = true) (ha' : h'.active = true) (hst : st ≠ .finished)
    (hwait : Waits E st x → Waits E st h') (hjoin : h'.unjoined = true → x.unjoined = true)
    (hb : h'.box E = x.box E) :
    InvAt E { s with handle := h' } st := by
  refine h.move hx ?_ ha' (fun _ => hwait) (fun hst' => absurd hst' hst)
    (fun _ => h.replaced (by rw [hx]; exact ha)) hjoin hb
  cases x <;> first | rfl | cases ha

theorem inv_box (h : InvAt E s st) {cur : V} {b : P} (hh : s.handle = .boxing cur)
    (hfresh : s.boxed (E.addr b) = s.unboxed (E.addr b)) :
    InvAt E { s with
      handle := .exchange (.waker b) cur
      boxed := count s.boxed (E.addr b) } st := by
  -- The box is made before the exchange: it is in the hand of the handle.
  have hx : s.handle.active = true := by rw [hh]; rfl
  refine h.setHandle hx rfl ?_ ?_ (fun _ => h.replaced (by rw [hh]; rfl))
    (fun _ => by rw [hh]; rfl) ?_
  · rw [hh]
    exact fun _ hw => hw
  · rw [hh]
    exact fun _ hf => hf
  · intro a
    have ha := h.boxes a
    have hb := h.boxes (E.addr b)
    rw [holders_def, hh] at ha hb
    rw [holders_def]
    simp only [HandlePc.box, one_none, count_apply] at ha hb ⊢
    by_cases hab : a = E.addr b
    · subst hab
      have hone : one (E.addr b) (some (E.addr b)) = 1 := if_pos rfl
      omega
    · have hone : one a (some (E.addr b)) = 0 := if_neg (by
        rw [Option.some.injEq]
        exact Ne.symm hab)
      omega

theorem inv_unbox (h : InvAt E s st) {b : P} (hh : s.handle = .unbox b) :
    InvAt E { s with handle := .take, unboxed := count s.unboxed (E.addr b) } st := by
  have hx : s.handle.active = true := by rw [hh]; rfl
  refine h.setHandle hx rfl ?_ (fun _ _ => trivial) (fun hu => by cases hu)
    (fun hu => by cases hu) ?_
  · rw [hh]
    exact fun _ hw => hw
  · intro a
    have ha := h.boxes a
    rw [holders_def, hh] at ha
    rw [holders_def]
    simp only [HandlePc.box, one_none, count_apply] at ha ⊢
    omega

variable [DecidableEq V]

theorem inv_load {op : Op P} (h : InvAt E s st) (hh : s.handle = .load op) :
    InvAt E (effect E s (.load op)) st := by
  simp only [effect]
  split
  · next he => exact h.refused hh rfl rfl (h.word_finished.mp he) rfl
  · next hne =>
      refine h.loaded hh rfl rfl (mt h.word_finished.mpr hne) (fun hw => ⟨hw, h.word⟩) id ?_
      cases op <;> rfl

theorem inv_exchange {op : Op P} {cur : V} {spurious : Bool} (h : InvAt E s st)
    (hh : s.handle = .exchange op cur) : Inv E (effect E s (.exchange op cur spurious)) := by
  simp only [effect]
  split
  · next hc => exact ⟨_, inv_register h hh hc.1⟩
  split
  · next he =>
      refine ⟨st, h.refused hh rfl rfl (h.word_finished.mp he) ?_⟩
      cases op <;> rfl
  · next hne =>
      refine ⟨st, h.loaded hh rfl rfl (mt h.word_finished.mpr hne) (fun hw => ?_) id ?_⟩
      · exact ⟨hw.1, h.word⟩
      · cases op <;> rfl

theorem inv_handoffLoad (h : InvAt E s st) (ht : s.task = .handoff) :
    InvAt E (effect E s .handoffLoad) st := by
  have hf := h.fits
  have hc := h.accounted
  rw [ht] at hf hc
  simp only [effect, h.decode]
  cases st with
  | syncJoiner j =>
      refine h.enter ⟨j, rfl, waits_syncJoiner hf.2, rfl⟩ hc ?_ ?_
      · rw [ht]
        rfl
      · exact fun hw => by cases hw
  | running | finished | detached | asyncWaker b | asyncJoiner j =>
      exact h.setTask ht rfl rfl (fun hw => by cases hw)

theorem inv_abandonedLoad (h : InvAt E s st) (ht : s.task = .abandoned) :
    InvAt E (effect E s .abandonedLoad) st := by
  have hf := h.fits
  have hc := h.accounted
  rw [ht] at hf hc
  simp only [effect]
  split
  · next hd =>
      rw [h.word, E.encode_eq_detached] at hd
      subst hd
      refine h.enter ⟨rfl, waits_detached hf.2⟩ hc ?_ ?_
      · rw [ht]
        rfl
      · exact fun hw => by cases hw
  · exact h.setTask ht rfl rfl (fun hw => by cases hw)

theorem inv_effect {a : Action V P A} (h : Inv E s) (hg : guard E s a) :
    Inv E (effect E s a) := by
  rcases h with ⟨st, h⟩
  -- Steps that touch neither word nor bookkeeping only move a pc; the others have a lemma each.
  cases a with
  | begin | park => exact ⟨st, h.setTask hg rfl rfl (fun hw => by cases hw)⟩
  | pending => exact ⟨st, h.setTask hg.1 rfl rfl (fun hw => by cases hw)⟩
  | complete =>
      exact ⟨st, h.setTask hg (phase_exit s.kind) (box_exit s.kind)
        (fun hw => by rw [wrote_exit] at hw; cases hw)⟩
  | handoffLoad => exact ⟨st, inv_handoffLoad h hg⟩
  | abandonedLoad => exact ⟨st, inv_abandonedLoad h hg⟩
  | write j =>
      have hw := inv_write h hg
      cases j <;> exact ⟨st, hw⟩
  | commitFinished j => exact ⟨_, inv_commit h hg⟩
  | swap => exact ⟨_, inv_swap h hg⟩
  | resume j => exact ⟨_, inv_resume h hg⟩
  | wake b => exact ⟨_, inv_wake h hg⟩
  | claim j => exact ⟨_, inv_claim h hg⟩
  | dropResult p => exact ⟨_, inv_dropResult h hg⟩
  | free p =>
      have hf := inv_free h hg (g := true)
      cases p <;> exact ⟨st, hf⟩
  | dropWaker r =>
      have hw := h.written
      rw [show s.task = .dropWaker r from hg] at hw
      cases r with
      | true => exact ⟨st, h.setTask hg rfl rfl (fun _ => hw rfl)⟩
      | false => exact ⟨st, h.setTask hg rfl rfl (fun hw => by cases hw)⟩
  | join j | await j | awaitForeign | abandon =>
      exact ⟨st, h.move hg.1 rfl rfl (fun _ hw => hw) (fun _ _ => trivial) (fun _ => hg.2)
        (fun _ => rfl) rfl⟩
  | isFinished j =>
      simp only [effect]
      split
      · next he =>
          exact ⟨st, h.refuse hg rfl rfl (h.word_finished.mp he) trivial
            (fun hu => by cases hu) rfl⟩
      · next hne =>
          exact ⟨st, h.loaded hg rfl rfl (mt h.word_finished.mpr hne) id id rfl⟩
  | load op => exact ⟨st, inv_load h hg⟩
  | loadWaker =>
      simp only [effect]
      split
      · next he =>
          exact ⟨st, h.refuse hg rfl rfl (h.word_finished.mp he) trivial
            (fun hu => by cases hu) rfl⟩
      · next hne =>
          exact ⟨st, h.loaded hg rfl rfl (mt h.word_finished.mpr hne) (fun hw => ⟨hw, h.word⟩)
            id rfl⟩
  | box cur b => exact ⟨_, inv_box h hg.1 hg.2⟩
  | unbox b => exact ⟨_, inv_unbox h hg⟩
  | exchange op cur spurious => exact inv_exchange h hg
  | dropReplaced b => exact ⟨_, inv_dropReplaced h hg⟩
  | take => exact ⟨_, inv_take h hg⟩
  | reclaim => exact ⟨_, inv_reclaim h hg⟩

theorem inv_next {a : Action V P A} (h : Inv E s) (hg : guard E s a) : Inv E (next E s a) := by
  rcases inv_effect h hg with ⟨st, h⟩
  exact ⟨st, h.word, h.fits, h.accounted, h.written, h.joined, h.unjoined, h.once, h.boxes,
    h.replaced⟩

omit [DecidableEq V] in
theorem inv_init (h : init E s) : Inv E s := by
  rcases h with ⟨hw, ht, hr, hwr, htk, hf, hreg, hres, hbx, hub, -, -⟩
  have hstart : ∀ st, s.word = E.encode st → (st.map E.addr).box = none →
      Fits E st s.handle .unpublished → s.handle.waiting E = none → s.handle.box E = none →
      InvAt E s st := by
    intro st hst hbox hfits hwaiting hmade
    refine ⟨hst, by rw [ht]; exact hfits, by rw [ht]; exact ⟨htk, hf⟩, ?_, fun a => ?_,
      fun _ => hreg, fun a => ?_, fun a => ?_, fun _ => hr⟩
    · rw [ht]
      exact fun hw => by cases hw
    · rw [hreg, hres, hwaiting]
      rfl
    · rw [hreg]
      exact Nat.zero_le 1
    · rw [holders_def, hbx, hub, hst, E.decode_encode, hbox, ht, hmade, hr]
      exact ⟨rfl, Nat.zero_le 1⟩
  -- A handle that is kept, or one that was dropped at once.
  rcases hw with ⟨hw, hh⟩ | ⟨hw, hh⟩
  · refine ⟨.running, hstart _ hw rfl ?_ ?_ ?_⟩ <;> rw [hh]
    · exact ⟨by simp, trivial⟩
    · rfl
    · rfl
  · refine ⟨.detached, hstart _ hw rfl ?_ ?_ ?_⟩ <;> rw [hh]
    · exact ⟨by simp, rfl⟩
    · rfl
    · rfl

theorem inv_reachable (hr : (system E).Reachable s) : Inv E s :=
  hr.induct (fun _ => inv_init) (fun _ _ h hg => inv_next h hg)

omit [DecidableEq A] [DecidableEq V] in
/-- One side reclaims, the result first. -/
theorem Accounted.one_side {takes frees : List Side} {p : Phase A} {h : HandlePc V P}
    (hc : Accounted takes frees p h) :
    takes = [] ∧ frees = [] ∨ ∃ side, takes = [side] ∧ (frees = [] ∨ frees = [side]) := by
  unfold Accounted at hc
  split at hc
  · exact .inr ⟨_, hc.1, .inl hc.2⟩
  · exact .inr ⟨_, hc.1, .inr hc.2⟩
  · rcases hc with ⟨side, ht, hf⟩
    exact .inr ⟨side, ht, .inr hf⟩
  · exact .inr ⟨_, hc.1, .inl hc.2⟩
  · exact .inl hc

omit [DecidableEq V] in
/-- Whoever takes the result finds it written, unless it is a thread that drops
    a value it never stored. -/
theorem InvAt.written_of_taken (h : InvAt E s st) (ht : s.takes ≠ []) :
    s.written = true ∨ (s.task = .free false ∨ s.task = .done false) ∧ s.handle = .gone := by
  have hf := h.fits
  have hc := h.accounted
  have hw := h.written
  -- By the place of the task, either it has stored a result or it has ended without one.
  cases htask : s.task <;> rw [htask] at hf hc hw
  case free p =>
    cases p with
    | true => exact .inl (hw rfl)
    | false => exact .inr ⟨.inl rfl, hf.2⟩
  case done p =>
    cases p with
    | true => exact .inl (hw rfl)
    | false => exact .inr ⟨.inr rfl, hf.2⟩
  case dropWaker r =>
    cases r with
    | true => exact .inl (hw rfl)
    | false => exact absurd hc.1 ht
  case write j => cases j <;> exact absurd hc.1 ht
  case wake | claim => exact .inl (hw rfl)
  case doubleExit => exact hf.elim
  all_goals exact absurd hc.1 ht

omit [DecidableEq V] in
/-- A task that is through leaves no joiner waiting. -/
theorem InvAt.resumed_of_done (h : InvAt E s st) {p : Bool} (ht : s.task = .done p) (a : A) :
    s.resumed a = s.registered a := by
  have hf := h.fits
  have hj := h.joined a
  have hnone : s.handle.waiting E = none := by
    rw [ht] at hf
    cases p with
    | false => rw [hf.2]; rfl
    | true =>
        cases hh : s.handle with
        | parked j => rw [hh] at hf; exact hf.2.elim
        | _ => rfl
  rw [hnone, one_none] at hj
  exact hj.symm

omit [DecidableEq V] in
theorem InvAt.reclaimed (h : InvAt E s st) (hs : Settled s) :
    ∃ side, s.takes = [side] ∧ s.frees = [side] := by
  rcases hs with ⟨⟨p, ht⟩, hh, -⟩
  have hc := h.accounted
  rw [ht, hh] at hc
  cases p with
  | false => exact ⟨.task, hc⟩
  | true => exact hc

omit [DecidableEq V] in
theorem InvAt.unboxed (h : InvAt E s st) (hs : Settled s) (b : A) :
    s.unboxed b = s.boxed b := by
  rcases hs with ⟨⟨p, ht⟩, hh, hr⟩
  have hf := h.fits
  have hb := (h.boxes b).1
  have hst : (st.map E.addr).box = none := by
    rw [ht] at hf
    cases p <;> rw [hf.1] <;> rfl
  rw [holders_def, h.decode, hst, ht, hh, hr] at hb
  exact hb.symm

/-- In every interleaving: the unreachable branch is not reached; the result
    and the descriptor are reclaimed at most once, by one side, the result
    first, and exactly once when both sides are through; what is taken was
    written before, unless the task's thread found the handle gone and dropped
    its own value; a joiner that registered is resumed once; and each box made
    for the word is woken or dropped once. -/
theorem join_protocol (hr : (system E).Reachable s) :
    s.task ≠ .doubleExit ∧
    (s.takes = [] ∧ s.frees = [] ∨
      ∃ side, s.takes = [side] ∧ (s.frees = [] ∨ s.frees = [side])) ∧
    (Settled s → ∃ side, s.takes = [side] ∧ s.frees = [side]) ∧
    (s.takes ≠ [] →
      s.written = true ∨ (s.task = .free false ∨ s.task = .done false) ∧ s.handle = .gone) ∧
    (∀ a, s.resumed a ≤ s.registered a ∧ s.registered a ≤ 1) ∧
    (∀ p, s.task = .done p → ∀ a, s.resumed a = s.registered a) ∧
    (∀ b, s.unboxed b ≤ s.boxed b ∧ s.boxed b ≤ s.unboxed b + 1) ∧
    (Settled s → ∀ b, s.unboxed b = s.boxed b) := by
  rcases inv_reachable hr with ⟨st, h⟩
  refine ⟨fun ht => ?_, h.accounted.one_side, h.reclaimed, h.written_of_taken,
    fun a => ⟨?_, h.once a⟩, fun p ht => h.resumed_of_done ht, fun b => ?_, h.unboxed⟩
  · -- The invariant at the phase that the task has.
    have hf := h.fits
    rw [ht] at hf
    exact hf
  · have hj := h.joined a
    omega
  · have hb := h.boxes b
    omega

/-- A task that has not run, with a handle. -/
def start (k : Kind) : State Word Ptr Word where
  kind := k
  word := encode .running
  task := .idle
  handle := .held
  replaced := none
  written := false
  takes := []
  frees := []
  registered := fun _ => 0
  resumed := fun _ => 0
  boxed := fun _ => 0
  unboxed := fun _ => 0
  gaveUp := false
  late := false

theorem init_start (k : Kind) : init wordEncoding (start k) :=
  ⟨.inl ⟨rfl, rfl⟩, rfl, rfl, rfl, rfl, rfl, fun _ => rfl, fun _ => rfl, fun _ => rfl,
    fun _ => rfl, rfl, rfl⟩

/-- The address of a box. -/
def boxAddr : Ptr := ⟨8, by decide, by decide⟩

/-- The handle is polled under a foreign waker, the future completes and wakes
    it, and the next poll finds `FINISHED`. -/
def boxedWakerRun : List (Action Word Ptr Word) :=
  [.awaitForeign, .loadWaker, .box running boxAddr,
    .exchange (.waker boxAddr) running true, .exchange (.waker boxAddr) running false,
    .begin, .complete, .write none, .swap, .wake 8, .dropWaker true,
    .awaitForeign, .loadWaker, .take, .reclaim]

theorem join_protocol_boxedWaker :
    let s := (system wordEncoding).run (start .async) boxedWakerRun
    (∃ side, s.takes = [side] ∧ s.frees = [side]) ∧ ∀ b, s.unboxed b = s.boxed b := by
  intro s
  have hr : (system wordEncoding).Reachable s :=
    System.reachable_run _ boxedWakerRun _ (init_start .async) (by decide)
  have hs : Settled s := ⟨⟨true, by decide⟩, by decide, by decide⟩
  have h := join_protocol hr
  exact ⟨h.2.2.1 hs, h.2.2.2.2.2.2.2 hs⟩

/-- The handle is dropped before the thread exits. -/
def discardRun : List (Action Word Ptr Word) :=
  [.begin, .abandon, .load .abandon, .exchange .abandon running false, .complete,
    .handoffLoad, .abandonedLoad, .dropResult false, .free false]

/-- The descriptor may be freed with no result written to it. -/
theorem discarded_unwritten :
    ¬ ∀ s, (system wordEncoding).Reachable s → s.frees ≠ [] → s.written = true := by
  intro h
  have hr : (system wordEncoding).Reachable
      ((system wordEncoding).run (start .stackful) discardRun) :=
    System.reachable_run _ discardRun _ (init_start .stackful) (by decide)
  exact absurd (h _ hr (by decide)) (by decide)

end Join

end Cmpth

import Cmpth.Scoped.Branch

/-!
# Async Calls

Every step of the async engine keeps its invariant, whatever the futures do. A
call that has returned has run both branches once, and the shared state of its
branch is freed once, when the call's future is gone and the entry has been
taken and given up.

Panics are among the steps. One in a branch that a thief drives leaves the
latch as it is, and so does one in a branch that is driven in place, where
nobody waits for it (`Whole`).

## Main definitions

* `Whole`: No branch has panicked but in place.
* `BranchReturns`: The step is no panic of a branch that a thief drives.
* `Sound`: What holds of a call.

## Theorems

* `call_of_spot`, `call_of_pc`: The calls that the invariant speaks of.
* `queue_pushed`, `queue_taken`, `calls_other`, `unborn_other`: The queues and the calls as an entry
  moves.
* `inv_push`, `inv_popOwn`, `inv_popOther`, `inv_pushBack`, `inv_take`, `inv_drive`, `inv_gaveUp`:
  The entry goes from one spot to another.
* `Whole.update`, `Whole.move`: The branches, as it does.
* `kept_set`, `kept_own`, `kept_popping`, `kept_pushBack`, `kept_register`, `kept_driveOwn`,
  `kept_step`, `kept_execute`, `kept_next`: Every step keeps the invariant.
* `inv_reachable`: The invariant holds in every state.
* `whole_reachable`: While no branch that a thief drives panics, the only branches that are not done
  when they are over are those driven in place.
* `refers_iff`: The entry refers to the shared state wherever it is, until it is given up.
* `sound_of_inv`: What it says of a call.
* `invoke_sound`: The results and the memory of a call.
* `invoke_sound_stolenAndDone`: A branch that is stolen and done in time.
-/

namespace Cmpth

namespace Scoped

namespace Async

variable {I W E V : Type*} [DecidableEq I] [DecidableEq W] [DecidableEq E]
variable {s : State I W E V} {p : I → Spot I W E} {g : I → Stage V}

omit [DecidableEq I] [DecidableEq W] [DecidableEq E] in
theorem call_of_spot (h : Inv s p g) {i : I} (hi : p i ≠ .none) :
    Call (s.invoke i) (p i) (g i) := by
  refine h.call i fun hu => hi ?_
  exact (h.unborn i hu).2.1

omit [DecidableEq I] [DecidableEq W] [DecidableEq E] in
theorem call_of_pc (h : Inv s p g) {i : I} (hi : (s.invoke i).pc ≠ .none) :
    Call (s.invoke i) (p i) (g i) ∧ (s.invoke i).life = .live := by
  have hborn : (s.invoke i).life ≠ .unborn := fun hu => hi (h.unborn i hu).1
  have hcall := h.call i hborn
  refine ⟨hcall, ?_⟩
  by_contra hne
  exact hi (hcall.gone hne)

omit [DecidableEq E] in
/-- An entry that was in no queue is pushed. -/
theorem queue_pushed (h : Inv s p g) {w : W} {x : I} (hout : ∀ w', x ∉ s.queue w') :
    ∀ w' j, j ∈ Function.update s.queue w (x :: s.queue w) w' ↔
      Function.update p x (.queue w) j = .queue w' := by
  intro w' j
  by_cases hj : j = x
  · subst hj
    rw [Function.update_self]
    refine forall_update_of_ne (P := fun w' q => j ∈ q ↔ (.queue w : Spot I W E) = .queue w')
      (fun v hv => ?_) (iff_of_true List.mem_cons_self rfl) w'
    exact iff_of_false (hout v) fun he => hv (Spot.queue.inj he).symm
  · rw [Function.update_of_ne hj]
    refine forall_update (P := fun w' q => j ∈ q ↔ p j = .queue w') (fun v => h.queue v j) ?_ w'
    exact (List.mem_cons.trans (or_iff_right hj)).trans (h.queue w j)

omit [DecidableEq E] in
/-- An entry is taken out of its queue. -/
theorem queue_taken (h : Inv s p g) {w : W} {x : I} {q : List I}
    (hq : (s.queue w).Perm (x :: q)) (px : Spot I W E) (hpx : ∀ w', px ≠ .queue w') :
    ∀ w' j, j ∈ Function.update s.queue w q w' ↔ Function.update p x px j = .queue w' := by
  have hspot : p x = .queue w := (h.queue w x).mp (hq.mem_iff.mpr List.mem_cons_self)
  have hnodup := List.nodup_cons.mp (hq.nodup_iff.mp (h.nodup w))
  intro w' j
  by_cases hj : j = x
  · subst hj
    rw [Function.update_self]
    refine forall_update_of_ne (P := fun w' q => j ∈ q ↔ px = .queue w')
      (fun v hv => iff_of_false (fun hm => ?_) (hpx v)) (iff_of_false hnodup.1 (hpx w)) w'
    exact hv (Spot.queue.inj (hspot.symm.trans ((h.queue v j).mp hm))).symm
  · rw [Function.update_of_ne hj]
    refine forall_update (P := fun w' q => j ∈ q ↔ p j = .queue w') (fun v => h.queue v j) ?_ w'
    rw [← h.queue w j, hq.mem_iff]
    exact (List.mem_cons.trans (or_iff_right hj)).symm

omit [DecidableEq W] [DecidableEq E] in
/-- The poll of one call moves the entry of another. -/
theorem calls_other (h : Inv s p g) {i x : I} {c : ParallelInvoke I W V} {px : Spot I W E}
    (hx : x ≠ i) (hcall : Call c (p i) (g i)) (hother : Call (s.invoke x) px (g x)) :
    ∀ j, (Function.update s.invoke i c j).life ≠ .unborn →
      Call (Function.update s.invoke i c j) (Function.update p x px j) (g j) := by
  refine forall_update_of_ne (P := fun j (c : ParallelInvoke I W V) => c.life ≠ .unborn →
    Call c (Function.update p x px j) (g j)) (fun j _ => ?_) fun _ => ?_
  · exact forall_update (P := fun j (pj : Spot I W E) => (s.invoke j).life ≠ .unborn →
      Call (s.invoke j) pj (g j)) h.call (fun _ => hother) j
  · rw [Function.update_of_ne hx.symm]
    exact hcall

omit [DecidableEq W] [DecidableEq E] in
theorem unborn_other (h : Inv s p g) {i x : I} {c : ParallelInvoke I W V} {px px' : Spot I W E}
    (hlife : c.life ≠ .unborn) (hspot : p x = px) (hne : px ≠ .none) :
    ∀ j, (Function.update s.invoke i c j).life = .unborn →
      (Function.update s.invoke i c j).pc = .none ∧ Function.update p x px' j = .none ∧
        (Function.update s.invoke i c j).stolen = false := by
  refine forall_update (P := fun j (c : ParallelInvoke I W V) => c.life = .unborn →
    c.pc = .none ∧ Function.update p x px' j = .none ∧ c.stolen = false) (fun j hborn => ?_)
    fun hborn => absurd hborn hlife
  have hj : j ≠ x := by
    rintro rfl
    exact hne (hspot.symm.trans (h.unborn j hborn).2.1)
  rw [Function.update_of_ne hj]
  exact h.unborn j hborn

omit [DecidableEq E] in
/-- The entry is pushed. -/
theorem inv_push (h : Inv s p g) {i : I} {w : W} {c : ParallelInvoke I W V}
    (hpc : (s.invoke i).pc = .pushing w) (hlife : c.life ≠ .unborn)
    (hcall : Call c (.queue w : Spot I W E) (g i)) (hback : ∀ w x, c.pc ≠ .pushBack w x) :
    Inv ((s.setQueue w (i :: s.queue w)).set i c) (Function.update p i (.queue w)) g := by
  have hspot : p i = .pushing := by
    refine (call_of_pc h ?_).1.pushing.mp ⟨w, hpc⟩
    rw [hpc]
    nofun
  have hnot : ∀ w' x, c.pc ≠ .pushBack w' x ∧ (s.invoke i).pc ≠ .pushBack w' x := by
    rw [hpc]
    exact fun w' x => ⟨hback w' x, nofun⟩
  -- An entry that is being pushed is in no queue yet.
  have hout : ∀ w', i ∉ s.queue w' := by
    intro w' hi
    cases hspot.symm.trans ((h.queue w' i).mp hi)
  refine { h with
    call := ?_, unborn := unborn_set h hlife, nodup := ?_, queue := ?_, hand := ?_, foreign := ?_,
    thief := fun e => ?_ }
  · have hcalls := calls_set (i := i) h hcall
    rw [Function.update_eq_self] at hcalls
    exact hcalls
  · exact forall_update (P := fun _ (q : List I) => q.Nodup) h.nodup
      (List.nodup_cons.mpr ⟨hout w, h.nodup w⟩)
  · exact queue_pushed h hout
  · intro x k
    refine (hand_set hnot x k).trans ?_
    exact spot_moved (r := .queue w) (fun x => h.hand x k) (by rw [hspot]; nofun) nofun x
  · exact forall_update (P := fun j (pj : Spot I W E) => pj ≠ .hand j) h.foreign nofun
  · exact spot_moved (h.thief e) (by rw [hspot]; nofun) nofun

omit [DecidableEq E] in
/-- The newest entry is popped by its own call. -/
theorem inv_popOwn (h : Inv s p g) {i : I} {w : W} {q : List I} {c : ParallelInvoke I W V}
    (hpc : (s.invoke i).pc = .popping w) (hq : s.queue w = i :: q) (hlife : c.life ≠ .unborn)
    (hcall : Call c (.reclaiming : Spot I W E) (g i)) (hback : ∀ w x, c.pc ≠ .pushBack w x) :
    Inv ((s.setQueue w q).set i c) (Function.update p i .reclaiming) g := by
  have hspot : p i = .queue w := (h.queue w i).mp (by rw [hq]; exact List.mem_cons_self)
  have hnodup := h.nodup w
  rw [hq, List.nodup_cons] at hnodup
  -- It is in no other call's hand.
  have hnot : ∀ w' x, c.pc ≠ .pushBack w' x ∧ (s.invoke i).pc ≠ .pushBack w' x := by
    rw [hpc]
    exact fun w' x => ⟨hback w' x, nofun⟩
  refine { h with
    call := ?_, unborn := unborn_set h hlife, nodup := ?_, queue := ?_, hand := ?_, foreign := ?_,
    thief := fun e => ?_ }
  · have hcalls := calls_set (i := i) h hcall
    rw [Function.update_eq_self] at hcalls
    exact hcalls
  · exact forall_update (P := fun _ (q : List I) => q.Nodup) h.nodup hnodup.2
  · exact queue_taken h (.of_eq hq) .reclaiming nofun
  · intro x k
    refine (hand_set hnot x k).trans ?_
    exact spot_moved (r := .reclaiming) (fun x => h.hand x k) (by rw [hspot]; nofun) nofun x
  · exact forall_update (P := fun j (pj : Spot I W E) => pj ≠ .hand j) h.foreign nofun
  · exact spot_moved (h.thief e) (by rw [hspot]; nofun) nofun

omit [DecidableEq E] in
/-- The newest entry is popped by another call. -/
theorem inv_popOther (h : Inv s p g) {i x : I} {w : W} {q : List I} {c : ParallelInvoke I W V}
    (hpc : (s.invoke i).pc = .popping w) (hq : s.queue w = x :: q) (hx : x ≠ i)
    (hlife : c.life ≠ .unborn) (hcall : Call c (p i) (g i)) (hback : c.pc = .pushBack w x)
    (hother : Call (s.invoke x) (.hand i : Spot I W E) (g x)) :
    Inv ((s.setQueue w q).set i c) (Function.update p x (.hand i)) g := by
  have hspot : p x = .queue w := (h.queue w x).mp (by rw [hq]; exact List.mem_cons_self)
  have hnodup := h.nodup w
  rw [hq, List.nodup_cons] at hnodup
  refine { h with
    call := calls_other h hx hcall hother, unborn := unborn_other h hlife hspot nofun,
    nodup := ?_, queue := queue_taken h (.of_eq hq) (.hand i) nofun, hand := ?_, foreign := ?_,
    thief := fun e => ?_ }
  · exact forall_update (P := fun _ (q : List I) => q.Nodup) h.nodup hnodup.2
  · -- The poll has this entry in hand, and had none before.
    intro y k
    by_cases hk : k = i
    · subst hk
      rw [show ((s.setQueue w q).set k c).invoke k = c from Function.update_self .., hback]
      refine forall_update_of_ne (P := fun y (py : Spot I W E) =>
        (∃ w', (PollPc.pushBack w x : PollPc I W V) = .pushBack w' y) ↔ py = .hand k)
        (fun j hj => ?_) (iff_of_true ⟨w, rfl⟩ rfl) y
      refine iff_of_false (fun ⟨w', hw'⟩ => hj (PollPc.pushBack.inj hw').2.symm) fun hp => ?_
      obtain ⟨w', hw'⟩ := (h.hand j k).mpr hp
      cases hpc.symm.trans hw'
    · rw [show ((s.setQueue w q).set i c).invoke k = s.invoke k from Function.update_of_ne hk ..]
      exact spot_moved (fun y => h.hand y k) (by rw [hspot]; nofun)
        (fun he => hk (Spot.hand.inj he).symm) y
  · exact forall_update (P := fun j (pj : Spot I W E) => pj ≠ .hand j) h.foreign
      fun he => hx (Spot.hand.inj he).symm
  · exact spot_moved (h.thief e) (by rw [hspot]; nofun) nofun

omit [DecidableEq E] in
/-- It pushes the entry back. -/
theorem inv_pushBack (h : Inv s p g) {i x : I} {w : W} {c : ParallelInvoke I W V}
    (hpc : (s.invoke i).pc = .pushBack w x) (hlife : c.life ≠ .unborn)
    (hcall : Call c (p i) (g i)) (hback : ∀ w x, c.pc ≠ .pushBack w x)
    (hx : x ≠ i) (hother : Call (s.invoke x) (.queue w : Spot I W E) (g x)) :
    Inv ((s.setQueue w (x :: s.queue w)).set i c) (Function.update p x (.queue w)) g := by
  have hspot : p x = .hand i := (h.hand x i).mp ⟨w, hpc⟩
  have hout : ∀ w', x ∉ s.queue w' := by
    intro w' hm
    cases hspot.symm.trans ((h.queue w' x).mp hm)
  refine { h with
    call := calls_other h hx hcall hother, unborn := unborn_other h hlife hspot nofun,
    nodup := ?_, queue := ?_, hand := ?_, foreign := ?_, thief := fun e => ?_ }
  · exact forall_update (P := fun _ (q : List I) => q.Nodup) h.nodup
      (List.nodup_cons.mpr ⟨hout w, h.nodup w⟩)
  · exact queue_pushed h hout
  · -- The poll had this entry in hand, and has none now.
    intro y k
    by_cases hk : k = i
    · subst hk
      rw [show ((s.setQueue w (x :: s.queue w)).set k c).invoke k = c from
        Function.update_self ..]
      refine forall_update_of_ne (P := fun y (py : Spot I W E) =>
        (∃ w', c.pc = .pushBack w' y) ↔ py = .hand k) (v := .queue w) (fun j hj => ?_)
        (iff_of_false (fun ⟨w', hw'⟩ => hback w' x hw') nofun) y
      refine iff_of_false (fun ⟨w', hw'⟩ => hback w' j hw') fun hp => ?_
      obtain ⟨w', hw'⟩ := (h.hand j k).mpr hp
      exact hj (PollPc.pushBack.inj (hpc.symm.trans hw')).2.symm
    · rw [show ((s.setQueue w (x :: s.queue w)).set i c).invoke k = s.invoke k from
        Function.update_of_ne hk ..]
      exact spot_moved (r := .queue w) (fun y => h.hand y k)
        (fun he => hk (Spot.hand.inj (hspot.symm.trans he)).symm) nofun y
  · exact forall_update (P := fun j (pj : Spot I W E) => pj ≠ .hand j) h.foreign nofun
  · exact spot_moved (h.thief e) (by rw [hspot]; nofun) nofun

/-- A thief takes an entry. -/
theorem inv_take (h : Inv s p g) {e : E} {x : I} {w : W} {q : List I}
    (hidle : s.thief e = .none) (hq : (s.queue w).Perm (x :: q)) :
    Inv (take (s.setQueue w q) e x) (Function.update p x (.thief e))
      (Function.update g x .taking) := by
  have hmem : x ∈ s.queue w := hq.mem_iff.mpr List.mem_cons_self
  have hspot : p x = .queue w := (h.queue w x).mp hmem
  have hcall := (call_of_spot h (by rw [hspot]; nofun)).taken hspot e
  have hborn : (s.invoke x).life ≠ .unborn := fun hu => by
    cases hspot.symm.trans (h.unborn x hu).2.1
  have hnodup := List.nodup_cons.mp (hq.nodup_iff.mp (h.nodup w))
  -- The entry was in a queue, so no thief has it.
  have hnobody : ∀ f, (s.thief f).entry ≠ some x := by
    intro f hf
    cases hspot.symm.trans ((h.thief f x).mp hf)
  refine {
    call := calls_set h hcall, unborn := unborn_set h hborn, nodup := ?_, queue := ?_,
    hand := ?_, foreign := ?_, thief := ?_, drive := ?_, dropping := ?_ }
  · exact forall_update (P := fun _ (q : List I) => q.Nodup) h.nodup hnodup.2
  · exact queue_taken h hq (.thief e) nofun
  · -- The call whose entry it is goes on as before.
    intro y k
    have hkept : ((take (s.setQueue w q) e x).invoke k).pc = (s.invoke k).pc := by
      by_cases hk : k = x
      · have hself : (take (s.setQueue w q) e x).invoke x = { s.invoke x with
            reclaimed := (s.invoke x).reclaimed + 1, stolen := true } := Function.update_self ..
        rw [hk, hself]
      · rw [show (take (s.setQueue w q) e x).invoke k = s.invoke k from Function.update_of_ne hk ..]
    rw [hkept]
    exact spot_moved (r := .thief e) (fun y => h.hand y k) (by rw [hspot]; nofun) nofun y
  · exact forall_update (P := fun j (pj : Spot I W E) => pj ≠ .hand j) h.foreign nofun
  · refine forall_update_of_ne (P := fun f pc => ∀ j, DrivePc.entry pc = some j ↔
      Function.update p x (.thief e) j = .thief f) (fun f hf => ?_) ?_
    · exact spot_moved (h.thief f) (by rw [hspot]; nofun)
        fun he => hf (Spot.thief.inj he).symm
    · refine forall_update_of_ne (P := fun j (pj : Spot I W E) =>
        (DrivePc.taking x : DrivePc I V).entry = some j ↔ pj = .thief e) (fun j hj => ?_)
        (iff_of_true rfl rfl)
      refine iff_of_false (fun he => hj (Option.some.inj he).symm) fun he => ?_
      have hidle' := (h.thief e j).mpr he
      rw [hidle] at hidle'
      cases hidle'
  · refine forall_update (P := fun _ pc => ∀ j st, DrivePc.entry pc = some j →
      pc.stage = some st → Function.update g x .taking j = st) (fun f j st hj hst => ?_) ?_
    · -- The thief had no entry before, and now has this one, which it has not begun.
      have hjx : j ≠ x := by
        rintro rfl
        exact hnobody f hj
      rw [Function.update_of_ne hjx]
      exact h.drive f j st hj hst
    · rintro j st ⟨⟩ ⟨⟩
      exact Function.update_self ..
  · refine forall_update (P := fun _ pc => ∀ j, DrivePc.entry pc = some j → pc.stage = none →
      Function.update g x .taking j = .done ∨ Function.update g x .taking j = .broken)
      (fun f j hj hst => ?_) nofun
    have hjx : j ≠ x := by
      rintro rfl
      exact hnobody f hj
    rw [Function.update_of_ne hjx]
    exact h.dropping f j hj hst

omit [DecidableEq W] in
/-- A thief goes on with the entry it has. -/
theorem inv_drive (h : Inv s p g) {e : E} {i : I} {pc : DrivePc I V} {c : ParallelInvoke I W V}
    {gi : Stage V} (hi : (s.thief e).entry = some i) (hpc : pc.entry = some i)
    (hlife : c.life = (s.invoke i).life) (hpoll : c.pc = (s.invoke i).pc)
    (hcall : Call c (p i) gi) (hstage : ∀ st, pc.stage = some st → gi = st)
    (hdropping : pc.stage = none → gi = .done ∨ gi = .broken) :
    Inv ((s.setThief e pc).set i c) p (Function.update g i gi) := by
  have hspot : p i = .thief e := (h.thief e i).mp hi
  have hborn : c.life ≠ .unborn := by
    rw [hlife]
    intro hu
    cases hspot.symm.trans (h.unborn i hu).2.1
  -- The entry is this thief's alone.
  have hothers : ∀ f, f ≠ e → (s.thief f).entry ≠ some i := by
    intro f hf hfi
    exact hf (Spot.thief.inj (hspot.symm.trans ((h.thief f i).mp hfi))).symm
  refine { h with
    call := ?_, unborn := ?_, hand := fun x k => ?_, thief := ?_, drive := ?_, dropping := ?_ }
  · have hcalls := calls_set (i := i) h hcall
    rw [Function.update_eq_self] at hcalls
    exact hcalls
  · have hunborn := unborn_set (i := i) (x := p i) h hborn
    rw [Function.update_eq_self] at hunborn
    exact hunborn
  · refine Iff.trans ?_ (h.hand x k)
    refine forall_update (P := fun k (c : ParallelInvoke I W V) => (∃ w, c.pc = .pushBack w x) ↔
      ∃ w, (s.invoke k).pc = .pushBack w x) (fun _ => Iff.rfl) ?_ k
    rw [hpoll]
  · refine forall_update (P := fun f pc => ∀ j, DrivePc.entry pc = some j ↔ p j = .thief f)
      h.thief fun j => ?_
    rw [hpc, ← hi]
    exact h.thief e j
  · refine forall_update_of_ne (P := fun _ pc => ∀ j st, DrivePc.entry pc = some j →
      pc.stage = some st → Function.update g i gi j = st) (fun f hf j st hj hst => ?_) ?_
    · have hji : j ≠ i := by
        rintro rfl
        exact hothers f hf hj
      rw [Function.update_of_ne hji]
      exact h.drive f j st hj hst
    · intro j st hj hst
      cases hpc.symm.trans hj
      rw [Function.update_self]
      exact hstage st hst
  · refine forall_update_of_ne (P := fun _ pc => ∀ j, DrivePc.entry pc = some j →
      pc.stage = none → Function.update g i gi j = .done ∨ Function.update g i gi j = .broken)
      (fun f hf j hj hst => ?_) ?_
    · have hji : j ≠ i := by
        rintro rfl
        exact hothers f hf hj
      rw [Function.update_of_ne hji]
      exact h.dropping f j hj hst
    · intro j hj hst
      cases hpc.symm.trans hj
      rw [Function.update_self]
      exact hdropping hst

omit [DecidableEq W] in
/-- A thief gives its entry up. -/
theorem inv_gaveUp (h : Inv s p g) {e : E} {i : I} {c : ParallelInvoke I W V}
    (hi : (s.thief e).entry = some i) (hlife : c.life = (s.invoke i).life)
    (hpoll : c.pc = (s.invoke i).pc) (hcall : Call c (.ended : Spot I W E) (g i)) :
    Inv ((s.setThief e .none).set i c) (Function.update p i .ended) g := by
  -- The entry is this thief's, and is nowhere when it lets go.
  have hspot : p i = .thief e := (h.thief e i).mp hi
  have hborn : c.life ≠ .unborn := by
    rw [hlife]
    intro hu
    cases hspot.symm.trans (h.unborn i hu).2.1
  refine { h with
    call := ?_, unborn := unborn_set h hborn, queue := fun w => ?_, hand := fun x k => ?_,
    foreign := ?_, thief := ?_, drive := ?_, dropping := ?_ }
  · have hcalls := calls_set (i := i) h hcall
    rw [Function.update_eq_self] at hcalls
    exact hcalls
  · exact spot_moved (h.queue w) (by rw [hspot]; nofun) nofun
  · have hkept : (∃ w, (Function.update s.invoke i c k).pc = .pushBack w x) ↔
        ∃ w, (s.invoke k).pc = .pushBack w x := by
      refine forall_update (P := fun k (c : ParallelInvoke I W V) => (∃ w, c.pc = .pushBack w x) ↔
        ∃ w, (s.invoke k).pc = .pushBack w x) (fun _ => Iff.rfl) ?_ k
      rw [hpoll]
    refine hkept.trans ?_
    exact spot_moved (r := .ended) (fun x => h.hand x k) (by rw [hspot]; nofun) nofun x
  · exact forall_update (P := fun j (pj : Spot I W E) => pj ≠ .hand j) h.foreign nofun
  · refine forall_update_of_ne (P := fun f pc => ∀ j, DrivePc.entry pc = some j ↔
      Function.update p i .ended j = .thief f) (fun f hf => ?_) ?_
    · exact spot_moved (h.thief f) (fun hfi => hf (Spot.thief.inj (hspot.symm.trans hfi)).symm)
        nofun
    · -- The thief had this entry and no other.
      refine forall_update_of_ne (P := fun j (pj : Spot I W E) =>
        (DrivePc.none : DrivePc I V).entry = some j ↔ pj = .thief e) (fun j hj => ?_)
        (iff_of_false nofun nofun)
      refine iff_of_false nofun fun he => ?_
      exact hj (Option.some.inj (((h.thief e j).mpr he).symm.trans hi))
  · exact forall_update (P := fun _ pc => ∀ j st, DrivePc.entry pc = some j →
      pc.stage = some st → g j = st) h.drive nofun
  · exact forall_update (P := fun _ pc => ∀ j, DrivePc.entry pc = some j → pc.stage = none →
      g j = .done ∨ g j = .broken) h.dropping nofun

/-- No branch has panicked but in place. -/
def Whole (p : I → Spot I W E) (g : I → Stage V) : Prop :=
  ∀ i, p i ≠ .own → g i ≠ .broken

omit [DecidableEq W] [DecidableEq E] in
theorem Whole.update (h : Whole p g) (i : I) (pi : Spot I W E) (gi : Stage V)
    (hi : pi ≠ .own → gi ≠ .broken) : Whole (Function.update p i pi) (Function.update g i gi) := by
  intro j hj
  by_cases hji : j = i
  · subst hji
    rw [Function.update_self] at hj ⊢
    exact hi hj
  · rw [Function.update_of_ne hji] at hj ⊢
    exact h j hj

omit [DecidableEq W] [DecidableEq E] in
theorem Whole.move (h : Whole p g) {i : I} {pi : Spot I W E} (hi : g i = .before) :
    Whole (Function.update p i pi) g := by
  have hw := h.update i pi (g i) (fun _ => by rw [hi]; nofun)
  rwa [Function.update_eq_self] at hw

/-- The step is no panic of a branch that a thief drives. -/
def BranchReturns : Action I W E V → Prop
  | .panic _ => False
  | _ => True

/-- What a step makes of the invariant. -/
def Kept (s' : State I W E V) (p : I → Spot I W E) (g : I → Stage V) (returns : Prop) : Prop :=
  ∃ p' g', Inv s' p' g' ∧ (returns → Whole p g → Whole p' g')

omit [DecidableEq W] [DecidableEq E] in
/-- A step of a poll that leaves the spot and the stage. -/
theorem kept_set (h : Inv s p g) {i : I} {c : ParallelInvoke I W V} {returns : Prop}
    (hlife : c.life ≠ .unborn) (hcall : Call c (p i) (g i))
    (hback : ∀ w x, c.pc ≠ .pushBack w x ∧ (s.invoke i).pc ≠ .pushBack w x) :
    Kept (s.set i c) p g returns := by
  have hinv := inv_set h hlife hcall hback (Or.inl rfl) fun _ _ => rfl
  rw [Function.update_eq_self, Function.update_eq_self] at hinv
  exact ⟨p, g, hinv, fun _ hw => hw⟩

omit [DecidableEq W] [DecidableEq E] in
/-- A step of a branch that is driven in place. -/
theorem kept_own (h : Inv s p g) {i : I} {c : ParallelInvoke I W V} {gi : Stage V}
    {returns : Prop} (hspot : p i = .own) (hlife : c.life ≠ .unborn) (hcall : Call c (p i) gi)
    (hback : ∀ w x, c.pc ≠ .pushBack w x ∧ (s.invoke i).pc ≠ .pushBack w x) :
    Kept (s.set i c) p g returns := by
  have hinv := inv_set h hlife hcall hback (Or.inl rfl) (by rw [hspot]; nofun)
  rw [Function.update_eq_self] at hinv
  refine ⟨p, _, hinv, fun _ hw => ?_⟩
  have hw' := hw.update i (p i) gi fun hne => absurd hspot hne
  rwa [Function.update_eq_self] at hw'

omit [DecidableEq E] in
/-- A call that is done with `a` pops. -/
theorem kept_popping (h : Inv s p g) {i : I} {w : W} (hpc : (s.invoke i).pc = .popping w)
    {returns : Prop} : Kept (step s i) p g returns := by
  obtain ⟨hc, hlive⟩ := call_of_pc h (by rw [hpc]; simp)
  have hborn : (s.invoke i).life ≠ .unborn := by
    rw [hlive]
    simp
  obtain ⟨⟨ra, hra⟩, hpi⟩ := hc.waits (by rw [hpc]; trivial)
  unfold step
  simp only [hpc]
  cases hq : s.queue w with
  | nil =>
      refine kept_set h hborn (hc.setPc hlive ?_ ?_ ?_ ?_ ?_ ?_) ?_
      all_goals simp [hpc, PollPc.stage, PollPc.waits, hra, hpi]
  | cons x q =>
      have hx : p x = .queue w := (h.queue w x).mp (by rw [hq]; exact List.mem_cons_self)
      have hcx := call_of_spot h (i := x) (by rw [hx]; simp)
      have hgx : g x = .before := hcx.early (by rw [hx]; rfl)
      by_cases hxi : x = i
      · subst hxi
        simp only [if_true]
        refine ⟨_, _, inv_popOwn h hpc hq hborn (hc.move ?_ ?_ ?_ ?_ ?_ ?_ ?_ ?_ ?_) ?_, ?_⟩
        case refine_11 => exact fun _ hw => hw.move hgx
        all_goals simp [hpc, PollPc.stage, PollPc.waits, Spot.early, Spot.refers, hra, hx, hlive]
      · -- The entry of another call; this poll has it in hand.
        simp only [if_neg hxi]
        refine ⟨_, _, inv_popOther h hpc hq hxi hborn (hc.setPc hlive ?_ ?_ ?_ ?_ ?_ ?_) rfl
          (hcx.shift (Or.inl ⟨w, hx⟩) (Or.inr ⟨i, rfl⟩)), fun _ hw => hw.move hgx⟩
        all_goals simp [hpc, PollPc.stage, PollPc.waits, hra, hpi]

omit [DecidableEq E] in
/-- A call that has popped another's entry pushes it back. -/
theorem kept_pushBack (h : Inv s p g) {i x : I} {w : W}
    (hpc : (s.invoke i).pc = .pushBack w x) {returns : Prop} : Kept (step s i) p g returns := by
  obtain ⟨hc, hlive⟩ := call_of_pc h (by rw [hpc]; nofun)
  have hborn : (s.invoke i).life ≠ .unborn := by
    rw [hlive]
    nofun
  obtain ⟨⟨ra, hra⟩, hpi⟩ := hc.waits (by rw [hpc]; trivial)
  have hx : p x = .hand i := (h.hand x i).mp ⟨w, hpc⟩
  have hcx := call_of_spot h (i := x) (by rw [hx]; nofun)
  have hgx : g x = .before := hcx.early (by rw [hx]; rfl)
  have hxi : x ≠ i := fun heq => h.foreign i (heq ▸ hx)
  unfold step
  simp only [hpc]
  refine ⟨_, _, inv_pushBack h hpc hborn (hc.setPc hlive ?_ ?_ ?_ ?_ ?_ ?_) ?_ hxi
    (hcx.shift (Or.inr ⟨i, hx⟩) (Or.inl ⟨w, rfl⟩)), fun _ hw => hw.move hgx⟩
  all_goals simp [hpc, PollPc.stage, PollPc.waits, hra, hpi]

omit [DecidableEq E] in
/-- `register`: the exchange, or the load before it. -/
theorem kept_register (h : Inv s p g) {i : I}
    (hpc : (s.invoke i).pc = .loading ∨ ∃ cur, (s.invoke i).pc = .registering cur)
    {returns : Prop} :
    Kept (step s i) p g returns ∧
      Kept (s.set i { s.invoke i with pc := .registering (s.invoke i).task.latch }) p g
        returns := by
  have hne : (s.invoke i).pc ≠ .none := by
    rcases hpc with hpc | ⟨cur, hpc⟩
    all_goals
      rw [hpc]
      nofun
  obtain ⟨hc, hlive⟩ := call_of_pc h hne
  have hborn : (s.invoke i).life ≠ .unborn := by
    rw [hlive]
    nofun
  have hwaits : (s.invoke i).pc.waits := by
    rcases hpc with hpc | ⟨cur, hpc⟩
    all_goals
      rw [hpc]
      trivial
  have hold : (s.invoke i).pc.stage = none ∧ (∀ w, (s.invoke i).pc ≠ .pushing w) ∧
      (s.invoke i).pc ≠ .reclaiming ∧ ∀ w x, (s.invoke i).pc ≠ .pushBack w x := by
    rcases hpc with hpc | ⟨cur, hpc⟩
    all_goals simp [hpc, PollPc.stage]
  obtain ⟨⟨ra, hra⟩, hpi⟩ := hc.waits hwaits
  -- The latch is set by whoever is through with the branch.
  have hdone : (s.invoke i).task.latch = .done → g i = .done := by
    intro hl
    have hb := hc.branch
    cases hgi : g i with
    | done => rfl
    | before | taking | driving | broken =>
        rw [hgi] at hb
        exact absurd hl hb.2.2.1
    | storing rb =>
        rw [hgi] at hb
        exact absurd hl hb.2.1
    | setting =>
        rw [hgi] at hb
        exact absurd hl hb.2.2.2.1
  have hload : Kept (s.set i { s.invoke i with pc := .registering (s.invoke i).task.latch })
      p g returns := by
    refine kept_set h hborn (hc.setPc hlive ⟨hold.1, hold.2.1, hold.2.2.1⟩ ?_ ?_ ?_ ?_ ?_) ?_
    case refine_5 =>
      intro hl
      simp only [reduceCtorEq, PollPc.registering.injEq, false_or] at hl
      exact hdone hl
    all_goals simp [PollPc.stage, PollPc.waits, hra, hpi, hold]
  refine ⟨?_, hload⟩
  -- The load goes on to the exchange, which finds the latch as it was loaded, or loads it again.
  unfold step
  rcases hpc with hpc | ⟨cur, hpc⟩
  · simp only [hpc]
    exact hload
  · simp only [hpc]
    split
    · -- The branch was done before this poll could register.
      rename_i hcur
      have hgi : g i = .done := hc.latched (Or.inr (by rw [hpc, hcur]))
      refine kept_set h hborn (hc.setPc hlive ⟨hold.1, hold.2.1, hold.2.2.1⟩ ?_ ?_ ?_ ?_ ?_) ?_
      all_goals simp [PollPc.stage, PollPc.waits, hra, hpi, hold, hgi]
    · rename_i hcur
      split
      · rename_i heq
        exact kept_set h hborn (hc.register hpc (heq ▸ hcur)) (by simp [hold])
      · exact hload

omit [DecidableEq E] in
/-- `drive_to_completion`, in place: the branch is taken, and its result stored
    before the latch is set. -/
theorem kept_driveOwn (h : Inv s p g) {i : I} {st : Stage V}
    (hst : (s.invoke i).pc.stage = some st) (hg : (s.invoke i).pc.steps = true)
    {returns : Prop} : Kept (step s i) p g returns := by
  obtain ⟨hc, hlive⟩ := call_of_pc h (i := i) (fun hn => by rw [hn] at hst; cases hst)
  have hborn : (s.invoke i).life ≠ .unborn := by
    rw [hlive]
    nofun
  obtain ⟨hspot, hgi⟩ := hc.stage st hst
  have hsome : (s.invoke i).pc.stage ≠ none := by
    rw [hst]
    nofun
  have hb := hc.branch
  rw [hgi] at hb
  unfold step
  -- The branch goes through the same stages as with a thief.
  cases hpc : (s.invoke i).pc with
  | taking =>
      rw [hpc] at hst
      cases hst
      obtain ⟨hb1, hb2, hb3, hb4, hb5⟩ := hb
      simp only [hpc, hb1]
      refine kept_own h hspot ?_ (hc.driveOwn .driving .driving hsome ?_ (Or.inl rfl) ⟨rfl, rfl⟩)
        (by simp [hpc])
      · exact hborn
      · exact ⟨rfl, hb2, hb3, congrArg (· + 1) hb4, hb5⟩
  | storing rb =>
      rw [hpc] at hst
      cases hst
      obtain ⟨hb1, hb2, hb3, hb4, hb5⟩ := hb
      simp only [hpc]
      refine kept_own h hspot ?_ (hc.driveOwn .setting .setting hsome ?_ (Or.inl rfl) ⟨rfl, rfl⟩)
        (by simp [hpc])
      · exact hborn
      · exact ⟨hb1, hb5.symm, by rw [hb5]; nofun, hb2, hb3, hb4⟩
  | setting =>
      rw [hpc] at hst
      cases hst
      obtain ⟨hb1, hb2, hb3, hb4, hb5, hb6⟩ := hb
      simp only [hpc]
      refine kept_own h hspot ?_ (hc.driveOwn .finishing .done hsome ?_
        (Or.inr ⟨rfl, Or.inr ⟨rfl, rfl⟩⟩) ⟨rfl, rfl⟩) (by simp [hpc])
      · exact hborn
      · exact ⟨hb1, hb3, rfl, hb5, hb6, fun _ => hb2⟩
  | driving =>
      rw [hpc] at hg
      cases hg
  | _ =>
      rw [hpc] at hst
      cases hst

omit [DecidableEq E] in
/-- The poll's own operations. -/
theorem kept_step (h : Inv s p g) {i : I} (hg : (s.invoke i).pc.steps = true)
    {returns : Prop} : Kept (step s i) p g returns := by
  have hne : (s.invoke i).pc ≠ .none := by
    intro hn
    rw [hn] at hg
    cases hg
  obtain ⟨hc, hlive⟩ := call_of_pc h hne
  have hborn : (s.invoke i).life ≠ .unborn := by
    rw [hlive]
    simp
  -- Up to the pop the entry is in the queue; after it the branch is run here, or waited for.
  cases hpc : (s.invoke i).pc with
  | none | running w | driving =>
      rw [hpc] at hg
      cases hg
  | popping w => exact kept_popping h hpc
  | pushBack w x => exact kept_pushBack h hpc
  | loading => exact (kept_register h (Or.inl hpc)).1
  | registering cur => exact (kept_register h (Or.inr ⟨cur, hpc⟩)).1
  | taking | storing rb | setting => exact kept_driveOwn h (by rw [hpc]; rfl) hg
  | start w =>
      unfold step
      simp only [hpc]
      -- A first poll pushes the entry; a later one finds it pushed.
      split
      · rename_i hpushed
        have hpi : p i ≠ .none := fun hn => by
          rw [hc.pushed.mpr hn] at hpushed
          cases hpushed
        refine kept_set h hborn (hc.setPc hlive ?_ ?_ ?_ ?_ ?_ ?_) ?_
        all_goals simp [hpc, PollPc.stage, PollPc.waits, hpi]
      · rename_i hpushed
        have hpi : p i = .none := hc.pushed.mp (Bool.eq_false_iff.mpr hpushed)
        have hgi : g i = .before := hc.early (by rw [hpi]; rfl)
        refine ⟨_, _, inv_set h hborn (hc.leak hpc hpushed) (by simp [hpc]) (Or.inr ?_) ?_, ?_⟩
        · simp [hpi]
        · simp [hpi]
        · exact fun _ hw => hw.update _ _ _ fun _ => by rw [hgi]; simp
  | pushing w =>
      -- The entry gets its place with the push, and not before.
      have hpi : p i = .pushing := hc.pushing.mp ⟨w, hpc⟩
      have hgi : g i = .before := hc.early (by rw [hpi]; rfl)
      unfold step
      simp only [hpc]
      refine ⟨_, _, inv_push h hpc hborn (hc.move ?_ ?_ ?_ ?_ ?_ ?_ ?_ ?_ ?_) ?_,
        fun _ hw => hw.move hgi⟩
      all_goals simp [hpc, hpi, hlive, PollPc.stage, PollPc.waits, Spot.early, Spot.refers]
  | entered w =>
      have hpi : p i ≠ .none := hc.entered ⟨w, Or.inr hpc⟩
      unfold step
      simp only [hpc]
      split
      · rename_i hstate
        refine kept_set h hborn (hc.setPc hlive ?_ ?_ ?_ ?_ ?_ ?_) ?_
        all_goals simp [hpc, PollPc.stage, PollPc.waits, hpi, hstate]
      · rename_i ra hstate
        refine kept_set h hborn (hc.setPc hlive ?_ ?_ ?_ ?_ ?_ ?_) ?_
        all_goals simp [hpc, PollPc.stage, PollPc.waits, hpi, hstate]
      · -- A poll after completion panics.
        refine kept_set h hborn (hc.setPc hlive ?_ ?_ ?_ ?_ ?_ ?_) ?_
        all_goals simp [hpc, PollPc.stage, PollPc.waits]
  | reclaiming =>
      have hpi : p i = .reclaiming := hc.reclaiming.mp hpc
      have hcall := hc.reclaim hpc
      unfold step
      simp only [hpc]
      refine ⟨_, _, inv_set h hborn hcall (by simp [hpc]) (Or.inr (by simp [hpi])) (by simp [hpi]),
        fun _ hw => hw.update _ _ _ fun hne => absurd rfl hne⟩
  | finishing =>
      obtain ⟨ra, rb, hres, hstate, hcall⟩ := hc.finish hpc
      unfold step
      simp only [hpc, hres, hstate]
      exact kept_set h hborn hcall (by simp [hpc])

omit [DecidableEq W] in
/-- A thief's own operations: it drives the branch as its call would. -/
theorem kept_execute (h : Inv s p g) {e : E} (hg : (s.thief e).steps = true)
    {returns : Prop} : Kept (execute s e) p g returns := by
  -- The thief has the entry, so the call is live and its branch is at the thief's stage.
  have hcall : ∀ i, (s.thief e).entry = some i → Call (s.invoke i) (p i) (g i) ∧
      p i = .thief e := by
    intro i hi
    have hspot : p i = .thief e := (h.thief e i).mp hi
    exact ⟨call_of_spot h (by rw [hspot]; nofun), hspot⟩
  have hdrive : ∀ {i pc c gi}, (s.thief e).entry = some i → pc.entry = some i →
      c.life = (s.invoke i).life → c.pc = (s.invoke i).pc → Call c (p i) gi →
      (∀ st, pc.stage = some st → gi = st) → (pc.stage = none → gi = .done) →
      gi ≠ .broken → Kept ((s.setThief e pc).set i c) p g returns := by
    intro i pc c gi hi hpc hlife hpoll hc hst hdone hbroken
    refine ⟨p, _, inv_drive h hi hpc hlife hpoll hc hst fun hn => Or.inl (hdone hn), ?_⟩
    intro _ hw
    have hw' := hw.update i (p i) gi fun _ => hbroken
    rwa [Function.update_eq_self] at hw'
  unfold execute
  -- It takes the branch, stores the result, sets the latch and drops its reference.
  cases hpc : s.thief e with
  | none | driving i =>
      rw [hpc] at hg
      cases hg
  | taking i =>
      have hi : (s.thief e).entry = some i := by rw [hpc]; rfl
      obtain ⟨hc, hspot⟩ := hcall i hi
      have hgi : g i = .taking := h.drive e i .taking hi (by rw [hpc]; rfl)
      have hb := hc.branch
      rw [hgi] at hb
      obtain ⟨hb1, hb2, hb3, hb4, hb5⟩ := hb
      simp only [hb1]
      refine hdrive hi rfl rfl rfl (hc.drive .driving hspot (by rw [hgi]; nofun) ?_
        ⟨rfl, rfl⟩) ?_ (by nofun) (by nofun)
      · exact ⟨rfl, hb2, hb3, by simp [hb4], hb5⟩
      · intro st hst
        cases hst
        rfl
  | storing i rb =>
      have hi : (s.thief e).entry = some i := by rw [hpc]; rfl
      obtain ⟨hc, hspot⟩ := hcall i hi
      have hgi : g i = .storing rb := h.drive e i (.storing rb) hi (by rw [hpc]; rfl)
      have hb := hc.branch
      rw [hgi] at hb
      obtain ⟨hb1, hb2, hb3, hb4, hb5⟩ := hb
      refine hdrive hi rfl rfl rfl (hc.drive .setting hspot (by rw [hgi]; nofun) ?_
        ⟨rfl, rfl⟩) ?_ (by nofun) (by nofun)
      · exact ⟨hb1, hb5.symm, by rw [hb5]; nofun, hb2, hb3, hb4⟩
      · intro st hst
        cases hst
        rfl
  | setting i =>
      have hi : (s.thief e).entry = some i := by rw [hpc]; rfl
      obtain ⟨hc, hspot⟩ := hcall i hi
      have hgi : g i = .setting := h.drive e i .setting hi (by rw [hpc]; rfl)
      have hb := hc.branch
      rw [hgi] at hb
      obtain ⟨hb1, hb2, hb3, hb4, hb5, hb6⟩ := hb
      refine hdrive hi rfl rfl rfl (hc.drive .done hspot (by rw [hgi]; nofun) ?_
        ⟨rfl, rfl⟩) (by nofun) (fun _ => rfl) (by nofun)
      exact ⟨hb1, hb3, rfl, hb5, hb6, fun _ => hb2⟩
  | dropping i =>
      have hi : (s.thief e).entry = some i := by rw [hpc]; rfl
      obtain ⟨hc, hspot⟩ := hcall i hi
      have hgi := h.dropping e i hi (by rw [hpc]; rfl)
      refine ⟨_, _, inv_gaveUp h hi rfl rfl (hc.gaveUp hspot hgi), ?_⟩
      intro _ hw
      have hw' := hw.update i .ended (g i)
        fun _ => hw i (by rw [hspot]; nofun)
      rwa [Function.update_eq_self] at hw'

theorem kept_next (h : Inv s p g) {a : Action I W E V} (hg : guard s a = true) :
    Kept (next s a) p g (BranchReturns a) := by
  -- A call that is in a poll is one of the invariant's.
  have hlive : ∀ {i}, (s.invoke i).pc.idle ≠ true → Call (s.invoke i) (p i) (g i) ∧
      (s.invoke i).life = .live ∧ (s.invoke i).life ≠ .unborn := by
    intro i hi
    obtain ⟨hc, hl⟩ := call_of_pc h (i := i) fun hn => hi (by rw [hn]; rfl)
    exact ⟨hc, hl, by rw [hl]; simp⟩
  -- One case for each action; the guard says where the poll or the thief is.
  cases a with
  | create i =>
      simp only [guard, decide_eq_true_eq] at hg
      -- A call that is made anew has neither an entry nor a stage.
      obtain ⟨hpc, hpi, hst⟩ := h.unborn i hg
      refine ⟨_, _, inv_set h (by rintro ⟨⟩) call_new (by simp [ParallelInvoke.new, hpc])
        (Or.inl hpi.symm) (by simp [hpi]), fun _ hw => hw.update _ _ _ (by simp)⟩
  | poll i w =>
      simp only [guard, Bool.and_eq_true, decide_eq_true_eq] at hg
      have hpc : (s.invoke i).pc = .none := by
        cases hpc : (s.invoke i).pc with
        | none => rfl
        | _ =>
            rw [hpc] at hg
            cases hg.2
      have hborn : (s.invoke i).life ≠ .unborn := by
        rw [hg.1]
        simp
      refine kept_set h hborn ((h.call i hborn).setPc hg.1 ?_ ?_ ?_ ?_ ?_ ?_) ?_
      all_goals simp [hpc, PollPc.stage, PollPc.waits]
  | step i => exact kept_step h hg
  | spurious i =>
      refine (kept_register h (Or.inr ?_)).2
      cases hpc : (s.invoke i).pc with
      | registering cur => exact ⟨cur, rfl⟩
      | _ =>
          simp only [guard, hpc] at hg
          cases hg
  | pendingA i | panicA i =>
      -- A poll that returns from `a` leaves the entry where it is.
      have hin : ∃ w, (s.invoke i).pc = .running w := by
        cases hpc : (s.invoke i).pc with
        | running w => exact ⟨w, rfl⟩
        | _ =>
            simp only [guard, hpc] at hg
            cases hg
      obtain ⟨w, hpc⟩ := hin
      obtain ⟨hc, hl, hborn⟩ := hlive (i := i) (by rw [hpc]; rintro ⟨⟩)
      refine kept_set h hborn (hc.setPc hl ?_ ?_ ?_ ?_ ?_ ?_) ?_
      all_goals simp [hpc, PollPc.stage, PollPc.waits]
  | readyA i ra =>
      have hin : ∃ w, (s.invoke i).pc = .running w := by
        cases hpc : (s.invoke i).pc with
        | running w => exact ⟨w, rfl⟩
        | _ =>
            simp only [guard, hpc] at hg
            cases hg
      obtain ⟨w, hpc⟩ := hin
      obtain ⟨hc, hl, hborn⟩ := hlive (i := i) (by rw [hpc]; rintro ⟨⟩)
      simp only [next, hpc]
      exact kept_set h hborn (hc.finishA hpc) (by simp [hpc])
  | readyB i rb =>
      have hpc : (s.invoke i).pc = .driving := by
        cases hpc : (s.invoke i).pc with
        | driving => rfl
        | _ =>
            simp only [guard, hpc] at hg
            cases hg
      obtain ⟨hc, hl, hborn⟩ := hlive (i := i) (by rw [hpc]; rintro ⟨⟩)
      obtain ⟨hspot, hgi⟩ := hc.stage .driving (by rw [hpc]; rfl)
      have hb := hc.branch
      rw [hgi] at hb
      -- The poll drives `b` in place, and has its result to store.
      obtain ⟨hb1, hb2, hb3, hb4, hb5⟩ := hb
      refine kept_own h hspot ?_ (hc.driveOwn (.storing rb) (.storing rb) ?_ ?_ (Or.inl rfl)
        ⟨rfl, rfl⟩) (by simp [hpc])
      · exact hborn
      · rw [hpc]
        rintro ⟨⟩
      · exact ⟨hb1, hb3, hb4, congrArg (· + 1) hb5, rfl⟩
  | panicB i =>
      have hpc : (s.invoke i).pc = .driving := by
        cases hpc : (s.invoke i).pc with
        | driving => rfl
        | _ =>
            simp only [guard, hpc] at hg
            cases hg
      obtain ⟨hc, hl, hborn⟩ := hlive (i := i) (by rw [hpc]; rintro ⟨⟩)
      obtain ⟨hspot, hgi⟩ := hc.stage .driving (by rw [hpc]; rfl)
      have hb := hc.branch
      rw [hgi] at hb
      refine kept_own h hspot ?_ (hc.driveOwn .none .broken ?_ hb
        (Or.inr ⟨rfl, Or.inl ⟨rfl, rfl⟩⟩) ⟨rfl, rfl⟩) (by simp [hpc])
      · exact hborn
      · rw [hpc]
        rintro ⟨⟩
  | drop i =>
      simp only [guard, Bool.and_eq_true, decide_eq_true_eq] at hg
      have hpc : (s.invoke i).pc = .none := by
        cases hpc : (s.invoke i).pc with
        | none => rfl
        | _ =>
            rw [hpc] at hg
            cases hg.2
      have hborn : (s.invoke i).life ≠ .unborn := by
        rw [hg.1]
        simp
      exact kept_set h (by simp) ((h.call i hborn).dropped hg.1 hpc) (by simp [hpc])
  | pop e w =>
      simp only [guard, Bool.and_eq_true] at hg
      have hidle : s.thief e = .none := by
        cases ht : s.thief e with
        | none => rfl
        | _ =>
            rw [ht] at hg
            cases hg.1
      simp only [next]
      -- The thief takes the newest entry of its own queue, if there is one.
      cases hq : s.queue w with
      | nil =>
          rw [hq] at hg
          cases hg.2
      | cons x q =>
          exact ⟨_, _, inv_take h hidle (by rw [hq]), fun _ hw => hw.update _ _ _ (by simp)⟩
  | steal e w =>
      simp only [guard, Bool.and_eq_true] at hg
      have hidle : s.thief e = .none := by
        cases ht : s.thief e with
        | none => rfl
        | _ =>
            rw [ht] at hg
            cases hg.1
      simp only [next]
      -- The thief takes the oldest entry of another's queue, if there is one.
      cases hq : (s.queue w).getLast? with
      | none => exact ⟨p, g, h, fun _ hw => hw⟩
      | some x =>
          obtain ⟨q, hqx⟩ := List.getLast?_eq_some_iff.mp hq
          refine ⟨_, _, inv_take h hidle ?_, fun _ hw => hw.update _ _ _ (by simp)⟩
          rw [hqx, List.dropLast_concat]
          exact List.perm_append_singleton x q
  | execute e => exact kept_execute h hg
  | ready e rb =>
      have hin : ∃ i, s.thief e = .driving i := by
        cases ht : s.thief e with
        | driving i => exact ⟨i, rfl⟩
        | _ =>
            simp only [guard, ht] at hg
            cases hg
      obtain ⟨i, ht⟩ := hin
      have hi : (s.thief e).entry = some i := by rw [ht]; rfl
      have hspot : p i = .thief e := (h.thief e i).mp hi
      have hc := call_of_spot h (i := i) (by rw [hspot]; simp)
      have hgi : g i = .driving := h.drive e i .driving hi (by rw [ht]; rfl)
      have hb := hc.branch
      rw [hgi] at hb
      obtain ⟨hb1, hb2, hb3, hb4, hb5⟩ := hb
      simp only [next, ht]
      have hbranch : Branch { s.invoke i with
          retB := some rb, readyB := (s.invoke i).readyB + 1 } (.storing rb) :=
        ⟨hb1, hb3, hb4, congrArg (· + 1) hb5, rfl⟩
      refine ⟨p, _, inv_drive h hi rfl rfl rfl (hc.drive (.storing rb) hspot (by rw [hgi]; simp)
        hbranch ⟨rfl, rfl⟩) ?_ (by rintro ⟨⟩), ?_⟩
      · intro st hst
        cases hst
        rfl
      · intro _ hw
        have hw' := hw.update i (p i) (.storing rb) fun _ => by simp
        rwa [Function.update_eq_self] at hw'
  | panic e =>
      -- The thief's reference goes, and nobody will set the latch.
      have hin : ∃ i, s.thief e = .driving i := by
        cases ht : s.thief e with
        | driving i => exact ⟨i, rfl⟩
        | _ =>
            simp only [guard, ht] at hg
            cases hg
      obtain ⟨i, ht⟩ := hin
      have hi : (s.thief e).entry = some i := by rw [ht]; rfl
      have hspot : p i = .thief e := (h.thief e i).mp hi
      have hc := call_of_spot h (i := i) (by rw [hspot]; simp)
      have hgi : g i = .driving := h.drive e i .driving hi (by rw [ht]; rfl)
      have hb := hc.branch
      rw [hgi] at hb
      simp only [next, ht]
      have hinv : Inv ((s.setThief e (.dropping i)).set i (s.invoke i)) p
          (Function.update g i .broken) :=
        inv_drive h hi rfl rfl rfl (hc.drive .broken hspot (by rw [hgi]; simp) hb ⟨rfl, rfl⟩)
          (by rintro _ ⟨⟩) fun _ => Or.inr rfl
      have hsame : (s.setThief e (.dropping i)).set i (s.invoke i) =
          s.setThief e (.dropping i) := by
        simp only [State.set, State.setThief, Function.update_eq_self]
      rw [hsame] at hinv
      exact ⟨p, _, hinv, fun hf => hf.elim⟩

theorem inv_reachable {s : State I W E V}
    (h : (system (I := I) (W := W) (E := E) (V := V)).Reachable s) :
    ∃ p g, Inv s p g := by
  refine h.induct (P := fun s => ∃ p g, Inv s p g) (fun s hi => ⟨_, _, inv_init hi⟩) ?_
  intro s a ⟨p, g, hinv⟩ hg
  obtain ⟨p', g', hinv', -⟩ := kept_next hinv hg
  exact ⟨p', g', hinv'⟩

/-- While no branch that a thief drives panics, the only branches that are not
    done when they are over are those driven in place. -/
theorem whole_reachable {s : State I W E V}
    (h : (system (I := I) (W := W) (E := E) (V := V)).ReachableIf (fun _ a => BranchReturns a) s) :
    ∃ p g, Inv s p g ∧ Whole p g := by
  refine h.induct (P := fun s => ∃ p g, Inv s p g ∧ Whole p g)
    (fun s hi => ⟨_, _, inv_init hi, fun _ _ => by nofun⟩) ?_
  intro s a ⟨p, g, hinv, hw⟩ hg hret
  obtain ⟨p', g', hinv', hwhole⟩ := kept_next hinv hg
  exact ⟨p', g', hinv', hwhole hret hw⟩

/-- The entry of the call is in a poll's hands: about to be pushed, or to be
    pushed back, or reclaimed. -/
def InHand (s : State I W E V) (i : I) : Prop :=
  (∃ w, (s.invoke i).pc = .pushing w) ∨ (s.invoke i).pc = .reclaiming ∨
    ∃ j w, (s.invoke j).pc = .pushBack w i

/-- What holds of a call of the async engine. -/
structure Sound (s : State I W E V) (i : I) : Prop where
  /-- The branch is taken once, and whoever is about to finds it. -/
  driven : (s.invoke i).driven ≤ 1
  polled : (s.invoke i).pc = .taking → (s.invoke i).task.body = .pending
  stolen : ∀ e, s.thief e = .taking i → (s.invoke i).task.body = .pending
  /-- A poll that comes to its end has both results. -/
  finishing : (s.invoke i).pc = .finishing →
    ∃ ra rb, (s.invoke i).state = .waitingB ra ∧ (s.invoke i).task.result = some rb
  /-- What the call returns is what its branches, run once each, have
      returned. -/
  output : ∀ ra rb, (s.invoke i).output = some (ra, rb) →
    (s.invoke i).retA = some ra ∧ (s.invoke i).retB = some rb ∧ (s.invoke i).readyA = 1 ∧
      (s.invoke i).readyB = 1 ∧ (s.invoke i).driven = 1
  returned : (s.invoke i).state = .done → (s.invoke i).output ≠ none
  /-- The entry is in one place, and its reference reclaimed when it is taken
      from there. -/
  queued : ∀ w, i ∈ s.queue w → (s.queue w).count i = 1 ∧ (s.invoke i).reclaimed = 0 ∧
    ∀ w', i ∈ s.queue w' → w' = w
  reclaimed : (s.invoke i).pushed = true → (∀ w, i ∉ s.queue w) → ¬ InHand s i →
    (s.invoke i).reclaimed = 1
  once : (s.invoke i).reclaimed ≤ 1 ∧ (s.invoke i).task.freed ≤ 1
  /-- The shared state is freed when the call is gone and no entry or thief
      refers to it, and not before. -/
  freed : (s.invoke i).task.freed = 1 ↔ (s.invoke i).life = .gone ∧ (∀ w, i ∉ s.queue w) ∧
    ¬ InHand s i ∧ ∀ e, (s.thief e).entry ≠ some i

omit [DecidableEq W] [DecidableEq E] [DecidableEq I] in
/-- The entry refers to the shared state wherever it is, until it is given up. -/
theorem refers_iff (h : Inv s p g) {i : I} (hi : (s.invoke i).life ≠ .unborn) :
    (p i).refers = true ↔ (∃ w, i ∈ s.queue w) ∨ InHand s i ∨ ∃ e, (s.thief e).entry = some i := by
  have hc := h.call i hi
  constructor
  · intro hr
    -- Each place of the entry, and back.
    cases hp : p i with
    | none | own | ended =>
        rw [hp] at hr
        cases hr
    | pushing => exact Or.inr (Or.inl (Or.inl (hc.pushing.mpr hp)))
    | queue w => exact Or.inl ⟨w, (h.queue w i).mpr hp⟩
    | hand j =>
        obtain ⟨w, hw⟩ := (h.hand i j).mpr hp
        exact Or.inr (Or.inl (Or.inr (Or.inr ⟨j, w, hw⟩)))
    | reclaiming => exact Or.inr (Or.inl (Or.inr (Or.inl (hc.reclaiming.mpr hp))))
    | thief e => exact Or.inr (Or.inr ⟨e, (h.thief e i).mpr hp⟩)
  · rintro (⟨w, hw⟩ | (hpc | hpc | ⟨j, w, hpc⟩) | ⟨e, he⟩)
    · rw [(h.queue w i).mp hw]
      rfl
    · rw [hc.pushing.mp hpc]
      rfl
    · rw [hc.reclaiming.mp hpc]
      rfl
    · rw [(h.hand i j).mp ⟨w, hpc⟩]
      rfl
    · rw [(h.thief e i).mp he]
      rfl

omit [DecidableEq W] [DecidableEq E] in
theorem sound_of_inv (h : Inv s p g) {i : I} (hi : (s.invoke i).life ≠ .unborn) : Sound s i := by
  have hc := h.call i hi
  have hrefers := refers_iff h hi
  -- An entry that is in no queue and in no hand is with a thief, at home or gone.
  have hlate : (∀ w, i ∉ s.queue w) → ¬ InHand s i → p i ≠ .none → (p i).early = false := by
    intro hq hh hn
    cases hp : p i with
    | none => exact absurd hp hn
    | own | thief e | ended => rfl
    | pushing => exact absurd (Or.inl (hc.pushing.mpr hp)) hh
    | queue w => exact absurd ((h.queue w i).mpr hp) (hq w)
    | hand j =>
        obtain ⟨w, hw⟩ := (h.hand i j).mpr hp
        exact absurd (Or.inr (Or.inr ⟨j, w, hw⟩)) hh
    | reclaiming => exact absurd (Or.inr (Or.inl (hc.reclaiming.mpr hp))) hh
  have hbranch := hc.branch
  -- The fields of `Sound`, in their order.
  constructor
  · exact hbranch.driven_le
  · intro hpc
    rw [(hc.stage .taking (by rw [hpc]; rfl)).2] at hbranch
    exact hbranch.1
  · intro e he
    rw [h.drive e i .taking (by rw [he]; rfl) (by rw [he]; rfl)] at hbranch
    exact hbranch.1
  · intro hpc
    obtain ⟨ra, rb, hres, hstate, -⟩ := hc.finish hpc
    exact ⟨ra, rb, hstate, hres⟩
  · intro ra rb hout
    obtain ⟨hstate, hra, hrb, hg⟩ := hc.output ra rb hout
    have hfirst := hc.first
    rw [hstate] at hfirst
    rw [hg] at hbranch
    exact ⟨hra, hrb, hfirst.1, hbranch.2.2.2.2.1, hbranch.2.2.2.1⟩
  · intro hstate
    have hfirst := hc.first
    rw [hstate] at hfirst
    exact hfirst.2
  · intro w hw
    have hp := (h.queue w i).mp hw
    refine ⟨List.count_eq_one_of_mem (h.nodup w) hw, ?_, ?_⟩
    · rw [hc.reclaimed, hp]
      rfl
    · intro w' hw'
      have hp' := (h.queue w' i).mp hw'
      rw [hp] at hp'
      cases hp'
      rfl
  · intro hpushed hq hh
    have hn : p i ≠ .none := by
      intro hn
      rw [hc.pushed.mpr hn] at hpushed
      cases hpushed
    rw [hc.reclaimed, hlate hq hh hn]
    rfl
  · rw [hc.reclaimed, hc.freed]
    refine ⟨?_, ?_⟩
    · split_ifs <;> omega
    · split_ifs <;> omega
  · rw [hc.freed]
    cases hlife : (s.invoke i).life with
    | unborn => exact absurd hlife hi
    | live => simp
    | gone =>
        by_cases hr : (p i).refers = true
        · rw [if_pos (Or.inr hr)]
          have hsome := hrefers.mp hr
          constructor
          · nofun
          · rintro ⟨-, hq, hh, he⟩
            rcases hsome with ⟨w, hw⟩ | hin | ⟨e, he'⟩
            · exact absurd hw (hq w)
            · exact absurd hin hh
            · exact absurd he' (he e)
        · rw [if_neg (by simp [hr])]
          have hnone := fun hx => hr (hrefers.mpr hx)
          refine ⟨fun _ => ⟨rfl, ?_, ?_, ?_⟩, fun _ => rfl⟩
          · exact fun w hw => hnone (Or.inl ⟨w, hw⟩)
          · exact fun hin => hnone (Or.inr (Or.inl hin))
          · exact fun e he => hnone (Or.inr (Or.inr ⟨e, he⟩))

/-- In every state that polls, thieves and drops can reach, the branch of a call
    has been driven at most once, a call that has returned has run both its
    branches once and has their results, and the shared state is freed once. -/
theorem invoke_sound (s : State I W E V)
    (h : (system (I := I) (W := W) (E := E) (V := V)).Reachable s) (i : I)
    (hi : (s.invoke i).life ≠ .unborn) : Sound s i := by
  obtain ⟨p, g, hinv⟩ := inv_reachable h
  exact sound_of_inv hinv hi

/-- Nothing called yet. -/
def noCalls : State Unit Unit Unit ℕ where
  invoke _ := { ParallelInvoke.new with life := .unborn }
  queue _ := []
  thief _ := .none

theorem init_noCalls : init noCalls :=
  ⟨fun _ => ⟨rfl, rfl, rfl, rfl⟩, fun _ => rfl, fun _ => rfl⟩

/-- The second branch is stolen and returns 2, the first returns 1, and the call
    is dropped when it has returned both. -/
def stolenAndDone : List (Action Unit Unit Unit ℕ) :=
  [.create (), .poll () (), .step (), .step (), .step (), .pendingA (), .steal () (),
    .execute (), .ready () 2, .poll () (), .step (), .step (), .readyA () 1, .step (), .step (),
    .execute (), .step (), .execute (), .poll () (), .step (), .step (), .step (), .step (),
    .step (), .step (), .execute (), .drop ()]

theorem invoke_sound_stolenAndDone :
    ((system.run noCalls stolenAndDone).invoke ()).output = some (1, 2) ∧
      ((system.run noCalls stolenAndDone).invoke ()).task.freed = 1 ∧
      Sound (system.run noCalls stolenAndDone) () :=
  ⟨by decide +kernel, by decide +kernel, invoke_sound _
    (system.reachable_run stolenAndDone noCalls init_noCalls (by decide +kernel)) ()
    (by decide +kernel)⟩

end Async

end Scoped

end Cmpth

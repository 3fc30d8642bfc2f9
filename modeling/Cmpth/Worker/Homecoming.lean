import Cmpth.Worker.TeardownInv

/-!
# The Return of the Calling Context

What becomes of the context that called `init`, for every schedule and for every worker its
guard may be dropped on: `dest_cont` is there when worker 0's loop takes it, it is taken once, and
the context is resumed once, on worker 0's OS thread, after every other worker has left its loop.

That this happens at all is not for the scheduler to say: a ULT that never suspends keeps its
worker, and with it the join, for ever. But nothing else can hold it up. From any state in which
`finished` is set, each thread comes to the end of its loop by steps of its own, of which a rank
counts no more than seven, and then the closure joins them one by one.

## Main definitions

* `Pc.rank`: How far a thread is from the end of its loop.
* `Settled`: The thread is behind its loop.
* `ComesHome`: What is promised of the calling context.

## Theorems

* `rank_arrive`, `nearer_of_update`: A step that lowers the rank takes the thread nearer.
* `advance`: A thread comes nearer to the end of its loop.
* `can_settle`: It can come to the end, and the others stay where they are.
* `Settled.congr`: Settled is said of a thread's place.
* `can_settleAll`: One thread after the other comes to the end of its loop.
* `can_leave`: The first thread can resume the calling context.
* `can_join`: The closure joins the threads, which have all returned, by induction on their list.
* `can_comeBack`: The calling context can be resumed.
* `comesHome_of_inv`: The invariant gives the promise.
* `comesHome_reachable`: The promise is kept in every reachable state.
* `elsewhere_legal`: A main ULT that ends on another worker.
* `comesHome_elsewhere`: It comes back on worker 0.
-/

namespace Cmpth

namespace Worker

namespace Teardown

open Marker

section

variable {W T : Type*} [DecidableEq W] [DecidableEq T] {c : Setup W T} {s : State W T}

/-- How far a thread is from the end of its loop, once `finished` is set. -/
def Pc.rank (c : Setup W T) (ph : Phase) : Pc W T → Nat
  | .loop _ .check => 1
  | .loop _ .within => 2
  | .loop _ .next => 3
  | .picked _ (.loop _) => 2
  | .picked _ (.ult _) => 4
  | .run t => if t = c.main ∧ ph = .finished then 4 else 3
  | _ => 0

/-- The thread is behind its loop. -/
def Settled (s : State W T) (w : W) : Prop :=
  (s.pc w).ending = true ∨ s.pc w = .returned

/-- What a step of thread `w` does on its way. -/
structure Nearer (c : Setup W T) (s t : State W T) (w : W) : Prop where
  finished : t.finished = true
  others : ∀ k, k ≠ w → t.pc k = s.pc k
  rank : (t.pc w).rank c t.phase < (s.pc w).rank c s.phase

omit [DecidableEq W] in
theorem rank_arrive {n : Who W T} (h : n ≠ .ult c.main) (t : T) (ph ph' : Phase) :
    (arrive n).rank c ph' < (Pc.picked t n).rank c ph := by
  cases n with
  | loop v => simp [arrive, Pc.rank]
  | ult u =>
      have hu : u ≠ c.main := by simpa using h
      simp [arrive, Pc.rank, hu]

theorem nearer_of_update {t : State W T} {w : W} {p q : Pc W T} (hpc : s.pc w = p)
    (hq : t.pc = Function.update s.pc w q) (hf : t.finished = true)
    (hrank : q.rank c t.phase < p.rank c s.phase) : Nearer c s t w := by
  refine ⟨hf, ?_, ?_⟩
  · intro k hk
    rw [hq, Function.update_of_ne hk]
  · rw [hq, Function.update_self, hpc]
    exact hrank

/-- A thread that has not come to the end of its loop can come nearer, by a step of its own. -/
theorem advance (I : Inv c s) (hf : s.finished = true) {w : W} (hw : ¬ Settled s w) :
    ∃ a, guard c s a ∧ Nearer c s (next c s a) w := by
  -- Once `finished` is set, the main ULT has left its body.
  have hb : s.phase ≠ .body := by
    intro hb
    have hst := I.stage
    simp only [Stage, hb, hf] at hst
    exact absurd hst.1 (by simp)
  have hh := I.home w
  -- Each place in the loop has a step of its own that is nearer to the end.
  cases hpc : s.pc w with
  | caller t =>
      simp only [Home, hpc] at hh
      exact absurd (by simp [Pc.holds, hh.2.1]) (I.main_not_forking hb hpc rfl)
  | forked v t =>
      simp only [Home, hpc] at hh
      exact absurd (by simp [Pc.holds, hh.2.1]) (I.main_not_forking hb hpc rfl)
  | loop v turn =>
      cases turn with
      | check =>
          refine ⟨.load w v, hpc, nearer_of_update hpc rfl hf ?_⟩
          by_cases hv : v = c.first <;> simp [hf, behindLoop, hv, Pc.rank]
      | next => exact ⟨.enter w v, hpc, nearer_of_update hpc rfl hf (by simp [Pc.rank])⟩
      | within => exact ⟨.leave w v, hpc, nearer_of_update hpc rfl hf (by simp [Pc.rank])⟩
  | run t =>
      simp only [Home, hpc] at hh
      by_cases ht : t = c.main
      · subst ht
        have hmine : .ult c.main ∈ (s.pc w).holds := by simp [hpc, Pc.holds]
        rcases I.main_hand hb hmine with ⟨_, hph | hph⟩ | ⟨n, h, _⟩ | ⟨h, _⟩ | h
        · -- Everybody is woken first.
          refine ⟨.shutdown w, ⟨hpc, hph⟩, hf, fun _ _ => rfl, ?_⟩
          simp [next, hpc, Pc.rank, hph]
        · refine ⟨.pickRoot w c.main (.loop w), ⟨hpc, hh, .inr hph⟩, ?_⟩
          exact nearer_of_update hpc rfl hf (by simp [Pc.rank, hph])
        all_goals
          rw [hpc] at h
          cases h
      · refine ⟨.pickRoot w t (.loop w), ⟨hpc, hh, .inl fun he => absurd he ht⟩, ?_⟩
        exact nearer_of_update hpc rfl hf (by simp [Pc.rank, ht])
  | picked t n =>
      have hn := I.main_not_picked hb hpc
      by_cases ht : t = c.main
      · subst ht
        have hmine : .ult c.main ∈ (s.pc w).holds := by simp [hpc, Pc.holds]
        rcases I.main_hand hb hmine with ⟨h, _⟩ | ⟨m, _, hph⟩ | ⟨h, _⟩ | h
        case inr.inl =>
            refine ⟨.park w n, ⟨hpc, hph⟩, ?_⟩
            rw [next, land_plain fun h => hn h.1]
            exact nearer_of_update hpc rfl hf (rank_arrive hn ..)
        all_goals
          rw [hpc] at h
          cases h
      · refine ⟨.suspend w t n, ⟨hpc, fun he => absurd he ht⟩, ?_⟩
        rw [next, land_plain fun h => hn h.1]
        exact nearer_of_update hpc rfl hf (rank_arrive hn ..)
  | joining v hs => exact absurd (.inl (by rw [hpc]; rfl)) hw
  | leaving v d => exact absurd (.inl (by rw [hpc]; rfl)) hw
  | back t => exact absurd (.inl (by rw [hpc]; rfl)) hw
  | returned => exact absurd (.inr hpc) hw
  | failed =>
      simp only [Home, hpc] at hh

/-- The thread can come to the end of its loop, by induction on the rank, and the others stay
    where they are. -/
theorem can_settle (w : W) (n : Nat) (I : Inv c s) (hf : s.finished = true)
    (hn : (s.pc w).rank c s.phase ≤ n) :
    (system c).Can (fun t => Inv c t ∧ t.finished = true ∧ Settled t w ∧
      ∀ k, k ≠ w → t.pc k = s.pc k) s := by
  -- By induction on how many workers are still to settle.
  induction n generalizing s with
  | zero =>
      by_cases hw : Settled s w
      · exact System.can_here ⟨I, hf, hw, fun _ _ => rfl⟩
      · rcases advance I hf hw with ⟨a, _, hnear⟩
        have hless := hnear.rank
        omega
  | succ n ih =>
      by_cases hw : Settled s w
      · exact System.can_here ⟨I, hf, hw, fun _ _ => rfl⟩
      · rcases advance I hf hw with ⟨a, hg, hnear⟩
        have hless := hnear.rank
        have hrest := ih (inv_next I hg) hnear.finished (by omega)
        refine System.Can.step (M := system c) hg (hrest.trans ?_)
        intro t ht
        exact System.can_here ⟨ht.1, ht.2.1, ht.2.2.1,
          fun k hk => (ht.2.2.2 k hk).trans (hnear.others k hk)⟩

omit [DecidableEq W] [DecidableEq T] in
theorem Settled.congr {t : State W T} {w : W} (h : Settled s w) (hpc : t.pc w = s.pc w) :
    Settled t w := by
  unfold Settled
  rw [hpc]
  exact h

/-- One thread after the other comes to the end of its loop. -/
theorem can_settleAll (ws : List W) (I : Inv c s) (hf : s.finished = true) :
    (system c).Can (fun t => Inv c t ∧ t.finished = true ∧ ∀ w ∈ ws, Settled t w) s := by
  induction ws with
  | nil => exact System.can_here ⟨I, hf, fun _ hw => absurd hw List.not_mem_nil⟩
  | cons w ws ih =>
      refine ih.trans ?_
      intro t ht
      refine (can_settle w _ ht.1 ht.2.1 (Nat.le_refl _)).trans ?_
      intro u hu
      refine System.can_here ⟨hu.1, hu.2.1, ?_⟩
      intro k hk
      by_cases hkw : k = w
      · exact hkw ▸ hu.2.2.1
      · have hold := ht.2.2 k ((List.mem_cons.mp hk).resolve_left hkw)
        exact hold.congr (hu.2.2.2 k hkw)

/-- The context that called `init` is back, and so is everything it has waited for. -/
def Back (c : Setup W T) (s : State W T) : Prop :=
  s.pc c.first = .back c.main ∧ s.taken = 1 ∧ s.resumed = 1

theorem can_leave (I : Inv c s) (hpc : s.pc c.first = .leaving c.first (.ult c.main)) :
    (system c).Can (Back c) s := by
  have hg : guard c s (.exitToCont c.first c.first (.ult c.main)) := hpc
  have I' := inv_next I hg
  refine System.Can.step (M := system c) (a := .exitToCont c.first c.first (.ult c.main)) hg
    (System.can_here ?_)
  have hback : (next c s (.exitToCont c.first c.first (.ult c.main))).pc c.first =
      .back c.main := by
    rcases I.parked_leaving hpc with ⟨_, _, _, hph, _⟩
    simp [next, State.land, hph, Phase.inDrop]
  refine ⟨hback, ?_, ?_⟩
  · change (next c s (.exitToCont c.first c.first (.ult c.main))).taken = 1
    rw [I'.taken, hback]
    rfl
  · change (next c s (.exitToCont c.first c.first (.ult c.main))).resumed = 1
    rw [I'.resumed, hback]
    rfl

/-- The closure joins the threads, which have all returned, by induction on their list. -/
theorem can_join (hs : List W) (I : Inv c s) (hpc : s.pc c.first = .joining c.first hs)
    (hall : ∀ k, k ≠ c.first → s.pc k = .returned) : (system c).Can (Back c) s := by
  induction hs generalizing s with
  | nil =>
      have hg : guard c s (.take c.first c.first) := hpc
      refine System.Can.step (M := system c) (a := .take c.first c.first) hg
        (can_leave (inv_next I hg) ?_)
      change Function.update s.pc c.first (expectDest c.first s.destCont) c.first = _
      rw [(I.dest_present hpc).2.2.1]
      exact Function.update_self ..
  | cons k hs ih =>
      have hj := I.joined
      simp only [Joined, hpc] at hj
      have hk := hall k (hj.2.1 k List.mem_cons_self)
      have hg : guard c s (.join c.first c.first k hs) := ⟨hpc, hk⟩
      refine System.Can.step (M := system c) (a := .join c.first c.first k hs) hg
        (ih (inv_next I hg) (Function.update_self ..) ?_)
      intro j hj
      exact (Function.update_of_ne hj _ _).trans (hall j hj)

/-- Nothing but a ULT that never suspends can keep the calling context from coming back. -/
theorem can_comeBack (I : Inv c s) (hf : s.finished = true) : (system c).Can (Back c) s := by
  refine (can_settleAll (c.first :: c.others) I hf).trans ?_
  rintro t ⟨J, _, hall⟩
  have hgone : ∀ k, k ≠ c.first → t.pc k = .returned := by
    intro k hk
    have hh := J.home k
    rcases hall k (List.mem_cons_of_mem _ ((c.mem_others k).mpr hk)) with he | hr
    · -- What is behind the loop is worker 0's closure.
      unfold Home at hh
      cases hpc : t.pc k <;> simp only [hpc, Pc.ending] at he hh <;> first
        | exact absurd hh.1 hk
        | cases he
    · exact hr
  have hh := J.home c.first
  have hfirst := hall c.first List.mem_cons_self
  unfold Home at hh
  cases hpc : t.pc c.first <;> simp only [hpc] at hh
  case joining v hs => exact can_join hs J (hh.2.1 ▸ hpc) hgone
  case leaving v d => exact can_leave J (by rw [hpc, hh.2.1, hh.2.2.1])
  case back u =>
      refine System.can_here ⟨by rw [hpc, hh.2.1], ?_, ?_⟩
      · rw [J.taken, hpc]
        rfl
      · rw [J.resumed, hpc]
        rfl
  case returned => exact absurd rfl hh.1
  all_goals simp [Settled, hpc, Pc.ending] at hfirst

/-- What is promised of the calling context: its token is in `dest_cont` when the closure takes
    it, and the store into `dest_cont` overwrites nothing; it is taken once and resumed once, on
    worker 0's thread, and by then all the other threads have left their loops; and once
    `finished` is set, this is how it can end. -/
structure ComesHome (c : Setup W T) (s : State W T) : Prop where
  present : ∀ w v, s.pc w = .joining v [] → w = c.first ∧ s.destCont = some (.ult c.main)
  expected : ∀ w, s.pc w ≠ .failed
  vacant : ∀ w n, s.pc w = .picked c.main n → s.phase = .woken → s.destCont = none
  taken : s.taken = (s.pc c.first).beyond.toNat
  resumed : s.resumed = (s.pc c.first).isBack.toNat
  dest : ∀ w v d, s.pc w = .leaving v d → w = c.first ∧ d = .ult c.main
  home : ∀ w t, s.pc w = .back t → w = c.first ∧ t = c.main
  last : ∀ w, (s.pc w).beyond = true ∨ (∃ v, s.pc w = .joining v []) →
    ∀ k, k ≠ c.first → s.pc k = .returned
  comes : s.finished = true → (system c).Can (Back c) s

theorem comesHome_of_inv (I : Inv c s) : ComesHome c s where
  present w v hpc := by
    rcases I.dest_present hpc with ⟨hw, _, hd, _⟩
    exact ⟨hw, hd⟩
  expected w hpc := by
    -- The token that is parked or in hand is the main ULT's, and only one thread is behind its
    -- loop.
    have hh := I.home w
    simp only [Home, hpc] at hh
  vacant w n _ hph := by
    have hst := I.stage
    simp only [Stage, hph] at hst
    exact hst.2.1
  taken := I.taken
  resumed := I.resumed
  dest w v d hpc := by
    rcases I.parked_leaving hpc with ⟨hw, _, hd, _⟩
    exact ⟨hw, hd⟩
  home w t hpc := by
    have hh := I.home w
    simp only [Home, hpc] at hh
    exact ⟨hh.1, hh.2.1⟩
  last w hw := by
    rcases hw with hw | ⟨v, hpc⟩
    · have hh := I.home w
      have hj := I.joined
      unfold Home at hh
      cases hpc : s.pc w <;> simp only [hpc, Pc.beyond] at hw hh
      case leaving v d =>
          rw [hh.1] at hpc
          simp only [Joined, hpc] at hj
          exact hj.2
      case back t =>
          rw [hh.1] at hpc
          simp only [Joined, hpc] at hj
          exact hj.2
      all_goals cases hw
    · exact (I.dest_present hpc).2.2.2.2
  comes := can_comeBack I

/-- Whatever the schedule and wherever the guard is dropped. -/
theorem comesHome_reachable (h : (system c).Reachable s) : ComesHome c s :=
  comesHome_of_inv (inv_reachable h)

/-- Two workers, and no ULT but the calling context. -/
def pair : Setup Bool Unit where
  first := false
  others := [true]
  main := ()
  mem_others := by decide

/-- The calling context is stolen, and its guard is dropped on worker 1. -/
def elsewhere : List (Action Bool Unit) :=
  [.fork false (), .publish false false (), .load true true, .runOn true true (.ult ()),
    .load false false, .enter false false, .finish true, .leave false false, .load false false,
    .shutdown true, .pickRoot true () (.loop true), .park true (.loop true), .load true true,
    .join false false true [], .take false false, .exitToCont false false (.ult ())]

theorem elsewhere_legal : (system pair).Legal (initial pair) elsewhere := by
  decide

/-- It comes back on worker 0. -/
theorem comesHome_elsewhere :
    ((system pair).run (initial pair) elsewhere).pc false = .back () ∧
      ComesHome pair ((system pair).run (initial pair) elsewhere) :=
  ⟨by decide +kernel,
    comesHome_reachable ((system pair).reachable_run elsewhere _ rfl elsewhere_legal)⟩

end

end Teardown

end Worker

end Cmpth

import Cmpth.Scoped.Latch
import Cmpth.Scoped.Invoke

/-!
# Stolen Branches Release Their Waiters

In both engines a thief sets the latch of the branch it has run, and in both it
is the statement after the one that runs the branch. So the waiter is released
unless the branch panics, and if it does, it never is: the panic goes past
`latch.set()`, and no other worker has a reference to the task.

## Main definitions

* `Async.Released`: The latch of a stolen branch is set once the thief is done
  with it.

## Theorems

* `executes_of_holds`: A frame that has a reference in hand executes it, if it does not push it
  back.
* `not_waited`, `Async.not_released`: A panic leaves a waiter behind.
* `released`: While branches are whole, their latches are set.
* `stolen_released`: Which runs of the two engines release every waiter.
* `stolen_released_branches`: A stolen branch that returns, and one that panics.
* `panic_strands_waiter`: The thief has left the stolen branch, which has panicked, and its latch is
  not set: in the sync engine a call waits for it, and in the async engine its future is gone.
-/

namespace Cmpth

namespace Scoped

variable {W A V : Type*} [DecidableEq W] [DecidableEq A]

omit [DecidableEq W] [DecidableEq A] in
/-- A frame that has a reference in hand executes it, if it does not push it
    back. -/
theorem executes_of_holds {st : List (Frame W A V)}
    (hkeeps : ∀ t ra k x, .pushBack t ra k x ∉ st) {t : A} (ht : t ∈ st.filterMap Frame.holds) :
    t ∈ st.filterMap Frame.executes := by
  rcases List.mem_filterMap.mp ht with ⟨f, hf, hft⟩
  refine List.mem_filterMap.mpr ⟨f, hf, ?_⟩
  cases f with
  | pushBack t' ra k x => exact absurd hf (hkeeps t' ra k x)
  | exec _ | publish _ _ | setLatch _ => exact hft
  | _ => cases hft

/-- The execution of a task that a call waits for is unwound, and nobody is left
    to set the latch. -/
theorem not_waited {s : State W A V} (h : Inv s) (a : Action W A) (hc : ¬ BranchReturns s a) :
    ¬ Waited (next s a) := by
  -- Only a step that unwinds is excluded, and there the execution's frame is on top.
  cases a with
  | call w t | steal w v => exact absurd trivial hc
  | step w =>
      simp only [BranchReturns] at hc
      split at hc
      case h_2 => exact absurd trivial hc
      case h_1 t st hctl hst =>
        push Not at hc
        obtain ⟨w', hw'⟩ := hc
        have hstep : next s (.step w) = s.go w st .unwind := by
          simp only [next, step, hctl, hst, unwind]
        have href : t ∈ (s.worker w).refs := by
          rw [Worker.refs, hst]
          exact List.mem_append_right _ List.mem_cons_self
        have hawaits : t ∈ ((next s (.step w)).worker w').awaits := by
          rw [hstep]
          by_cases hw : w' = w
          · subst hw
            simpa [State.go, Worker.awaits, hst, List.filterMap_cons, Frame.awaits] using hw'
          · simpa [State.go, hw] using hw'
        have hlatch : (s.task t).latch ≠ true := fun hl => h.latch t (h.safe w t href) hl w href
        have hgone : ∀ v, t ∉ ((next s (.step w)).worker v).holds := by
          intro v hv
          rw [hstep] at hv
          by_cases hvw : v = w
          · subst hvw
            have hkeeps := (h.ok v).keeps
            have hnodup := (h.ok v).refs_nodup
            rw [hst] at hkeeps
            rw [Worker.refs, hst] at hnodup
            simp only [List.filterMap_cons, Frame.executes] at hnodup
            have hne := List.nodup_middle.mp hnodup
            rw [List.nodup_cons, List.mem_append, not_or] at hne
            simp only [State.go, Function.update_self, Worker.holds, List.mem_append] at hv
            rcases hv with hq | hs
            · exact hne.1.1 hq
            · exact hne.1.2 (executes_of_holds
                (fun t ra k x hm => hkeeps t ra k x (List.mem_cons_of_mem _ hm)) hs)
          · simp only [State.go, Function.update_of_ne hvw, Worker.holds, List.mem_append] at hv
            refine hvw (h.refs_unique v w t ?_ href)
            rw [Worker.refs, List.mem_append]
            exact hv.imp_right (executes_of_holds (h.ok v).keeps)
        intro hwaited
        rcases hwaited w' t hawaits with ⟨v, hv⟩ | hl
        · exact hgone v hv
        · rw [hstep] at hl
          exact hlatch hl

namespace Async

variable {I E : Type*}

/-- The latch of a stolen branch is set once control has left the thief's
    `drive_to_completion`. -/
def Released (s : State I W E V) : Prop :=
  ∀ i, (s.invoke i).stolen = true →
    (∀ e, (s.thief e).entry = some i → (s.thief e).stage = none) →
    (s.invoke i).task.latch = .done

variable {s : State I W E V} {p : I → Spot I W E} {g : I → Stage V}

omit [DecidableEq W] in
theorem released (h : Inv s p g) (hw : Whole p g) : Released s := by
  intro i hstolen hleft
  have hpi : p i ≠ .none := fun hn => by
    by_cases hlife : (s.invoke i).life = .unborn
    · rw [(h.unborn i hlife).2.2] at hstolen
      cases hstolen
    · rcases (h.call i hlife).stolen.mp hstolen with ⟨e, he⟩ | ho
      · rw [hn] at he
        cases he
      · rw [hn] at ho
        cases ho
  have hc := call_of_spot h hpi
  -- A stolen entry whose thief has left is done, whichever way it went.
  have hdone : g i = .done := by
    rcases hc.stolen.mp hstolen with ⟨e, he⟩ | ho
    · have hentry := (h.thief e i).mpr he
      rcases h.dropping e i hentry (hleft e hentry) with hd | hb
      · exact hd
      · exact absurd hb (hw i (by rw [he]; nofun))
    · rcases hc.late (Or.inl ho) with hd | hb
      · exact hd
      · exact absurd hb (hw i (by rw [ho]; nofun))
  have hbranch := hc.branch
  rw [hdone] at hbranch
  exact hbranch.2.2.1

variable [DecidableEq I] [DecidableEq E]

/-- A branch panics in the thief's hands, and its latch is not set. -/
theorem not_released (h : Inv s p g) {a : Action I W E V} (hg : guard s a = true)
    (ha : ¬ BranchReturns a) : ¬ Released (next s a) := by
  cases a with
  | panic e =>
      have hin : ∃ i, s.thief e = .driving i := by
        cases ht : s.thief e with
        | driving i => exact ⟨i, rfl⟩
        | _ =>
            simp only [guard, ht] at hg
            cases hg
      obtain ⟨i, ht⟩ := hin
      have hspot : p i = .thief e := (h.thief e i).mp (by rw [ht]; rfl)
      have hc := call_of_spot h (i := i) (by rw [hspot]; simp)
      have hbranch := hc.branch
      rw [h.drive e i .driving (by rw [ht]; rfl) (by rw [ht]; rfl)] at hbranch
      intro hreleased
      simp only [next, ht] at hreleased
      refine hbranch.2.2.1 (hreleased i (hc.stolen.mpr (Or.inl ⟨e, hspot⟩)) ?_)
      intro e' he'
      by_cases hee : e' = e
      · subst hee
        simp only [State.setThief, Function.update_self, DrivePc.stage]
      · -- No other thief has the entry.
        simp only [State.setThief, Function.update_of_ne hee] at he'
        have hother := (h.thief e' i).mp he'
        rw [hspot] at hother
        cases hother
        exact absurd rfl hee
  | _ => exact absurd trivial ha

end Async

/-- In both engines, runs in which no branch panics in a thief's hands release
    every waiter in every state. Any such panic leaves one that is not. -/
theorem stolen_released {I E : Type*} [DecidableEq I] [DecidableEq E] :
    (∀ s : State W A V, system.ReachableIf BranchReturns s → Waited s) ∧
    (∀ (s : State W A V) (a : Action W A),
      system.ReachableIf (fun s a => BranchReturns s a ∧ LeavesConsumed s a) s →
      enabled s a = true → ¬ BranchReturns s a → ¬ Waited (next s a)) ∧
    (∀ s : Async.State I W E V,
      Async.system.ReachableIf (fun _ a => Async.BranchReturns a) s → Async.Released s) ∧
    ∀ (s : Async.State I W E V) (a : Async.Action I W E V), Async.system.Reachable s →
      Async.guard s a = true → ¬ Async.BranchReturns a → ¬ Async.Released (Async.next s a) := by
  refine ⟨?_, ?_, ?_, ?_⟩
  · -- The threads by their frames, the tasks by their places; a panic breaks either.
    intro s h
    have hinv : Waits s := h.induct (fun s ⟨_, _, _, hs⟩ => waits_started hs)
      fun s a hI hg hc => waits_next hI a hg hc
    exact hinv.waited
  · intro s a h _ ha
    have hinv : Inv s := h.induct (fun s ⟨_, _, _, hs⟩ => inv_started hs)
      fun s a hI hg hc => inv_next hI a hg hc.2
    exact not_waited hinv a ha
  · intro s h
    obtain ⟨p, g, hinv, hw⟩ := Async.whole_reachable h
    exact Async.released hinv hw
  · intro s a h hg ha
    obtain ⟨p, g, hinv⟩ := Async.inv_reachable h
    exact Async.not_released hinv hg ha

/-- Worker 1 steals the second branch and runs it to its end. -/
def branchReturned : List (Action Bool Nat) :=
  [.call false 0, .step true, .step true, .steal true false, .step true, .step true, .step true,
    .step true, .step true]

/-- Worker 1 steals the second branch, which panics. -/
def branchPanicked : List (Action Bool Nat) :=
  [.call false 0, .step true, .step true, .steal true false, .step true, .step true]

/-- The same in the async engine. -/
def drivenBranch : List (Async.Action Unit Unit Unit Nat) :=
  [.create (), .poll () (), .step (), .step (), .step (), .pendingA (), .steal () (),
    .execute ()]

/-- The first branch returns 1 and the second 2. -/
def returning : State Bool Nat Nat :=
  twoWorkers (.parallelCall (.ret 1) (.ret 2) fun a b => .ret (a + b))

/-- The second branch panics. -/
def panicking : State Bool Nat Nat :=
  twoWorkers (.parallelCall (.ret 1) .panic fun a b => .ret (a + b))

theorem stolen_released_branches :
    Waited (system.run returning branchReturned) ∧
    ¬ Waited (next (system.run panicking branchPanicked) (.step true)) ∧
    Async.Released (Async.system.run Async.noCalls
      (drivenBranch ++ [Async.Action.ready () 2, .execute (), .execute (), .execute ()])) ∧
    ¬ Async.Released (Async.next (Async.system.run Async.noCalls drivenBranch) (.panic ())) := by
  refine ⟨?_, ?_, ?_, ?_⟩
  · -- One program whose branch returns and one whose branch panics, in either engine.
    refine (stolen_released (I := Unit) (E := Unit)).1 _ ?_
    refine system.reachableIf_run branchReturned returning
      (.init _ ⟨false, [true], _, started_twoWorkers _⟩) (by decide +kernel) ?_
    exact ⟨trivial, trivial, trivial, trivial, trivial, trivial, trivial, trivial, trivial, trivial⟩
  · refine (stolen_released (I := Unit) (E := Unit)).2.1 _ _ ?_ (by decide +kernel) ?_
    · refine system.reachableIf_run branchPanicked panicking
        (.init _ ⟨false, [true], _, started_twoWorkers _⟩) (by decide +kernel) ?_
      exact ⟨⟨trivial, trivial⟩, ⟨trivial, trivial⟩, ⟨trivial, trivial⟩, ⟨trivial, trivial⟩,
        ⟨trivial, trivial⟩, ⟨trivial, trivial⟩, trivial⟩
    · exact fun h => h false List.mem_cons_self
  · refine (stolen_released (W := Unit) (A := Unit)).2.2.1 _ ?_
    exact Async.system.reachableIf_run _ Async.noCalls (.init _ Async.init_noCalls)
      (by decide +kernel) (by simp [System.Along, drivenBranch, Async.BranchReturns])
  · refine (stolen_released (W := Unit) (A := Unit)).2.2.2 _ _ ?_ (by decide +kernel) (fun h => h)
    exact Async.system.reachable_run drivenBranch Async.noCalls Async.init_noCalls
      (by decide +kernel)

/-- The thief has left the stolen branch, which has panicked, and its latch is
    not set: in the sync engine a call waits for it, and in the async engine its
    future is gone. -/
theorem panic_strands_waiter :
    (∃ s : State Bool Nat Nat, system.Reachable s ∧ 0 ∈ (s.worker false).awaits ∧ ¬ Waited s) ∧
    ∃ s : Async.State Unit Unit Unit Nat, Async.system.Reachable s ∧ ¬ Async.Released s := by
  constructor
  · have hrun := system.reachable_run (branchPanicked ++ [.step true]) panicking
      ⟨false, [true], _, started_twoWorkers _⟩ (by decide +kernel)
    refine ⟨_, hrun, List.mem_cons_self, ?_⟩
    intro hwaited
    -- No worker executes the task, and its latch is not set.
    rcases hwaited false 0 List.mem_cons_self with ⟨w, hw⟩ | hl
    · cases w
      · exact absurd hw (by decide +kernel)
      · exact absurd hw (by decide +kernel)
    · exact absurd hl (by decide +kernel)
  · have hrun := Async.system.reachable_run
      (drivenBranch ++ [Async.Action.panic (), .execute ()])
      Async.noCalls Async.init_noCalls (by decide +kernel)
    refine ⟨_, hrun, ?_⟩
    intro hreleased
    have hl := hreleased () (by decide +kernel) fun () he => absurd he (by decide +kernel)
    exact absurd hl (by decide +kernel)

end Scoped

end Cmpth

import Cmpth.Scoped.Eval

/-!
# Values of Branches

Why a run of the engine computes what sequential evaluation does.

Each frame of a native stack waits for the result of what runs above it, and
the history says which program that is. So a stack fits the outcome that its
top is about to have if every frame, given what the program below it evaluates
to, goes on as evaluation goes on. A thief's `execute_trampoline` cuts the
chain. It owes the value of the second branch to the task's memory, and what
lies below it on the thief's stack waits for nothing.

The run queue is a history of its own. What a call finds there on its return is
what was there when it began, without what thieves have taken in between, since
everything that ran on top of it has taken its own tasks away again.

## Main definitions

* `Fits`: The stack goes on with an outcome as evaluation does.
* `Frame.keeps`: What the frame's call leaves in the queue.
* `Held`: The queue is, call by call, what the calls left there.
* `Ready`: The closure of a task has not been taken.
* `Done`: The closure has been run and its result is in the task.
* `Worker.Faithful`: What holds of one worker.
* `Faithful`: What holds of the engine and its history.

## Theorems

* `Resumes.congr`, `Worker.Fits.congr`: What a worker's values depend on.
* `fits_congr`: Only the branches of the tasks on the stack matter.
* `held_cons`, `Held.subset`, `Held.nodup`, `held_congr`, `Frame.keeps_congr`: What is queued, and
  whose it is.
* `Held.mono`: Thieves only shorten a queue.
* `Held.keeps_subset`: What a call finds queued are tasks of calls below it.
* `eq_filter_of_prefix`: A queue that thieves have shortened, by what they took.
* `Frame.uses_cases`, `Frame.uses_of_begun`, `Worker.fresh_mem`, `Worker.begun_subset`,
  `Worker.mentions_of_owns`: The tasks that a frame or a worker uses.
* `Inv.uses_unique`: A task's memory belongs to one worker.
* `Worker.Faithful.frame`: A worker that takes no step, while others write to tasks and to the
  history of tasks that are not its own.
* `Faithful.update`: What a step of one worker has to keep.
-/

namespace Cmpth

namespace Scoped

variable {W A V : Type*}

/-- The call of the task at `t` has `ra` from its first branch, and goes on
    with the second's value to an outcome with the property. -/
def Resumes (fst snd : A → Prog V) (t : A) (ra : V) (k : V → V → Prog V)
    (F : Option V → Prop) : Prop :=
  (fst t).eval = some (some ra) ∧
    ∃ rb r, (snd t).eval = some (some rb) ∧ (k ra rb).eval = some r ∧ F r

/-- The stack of an execution: the loop that started it is below. -/
def Loops : List (Frame W A V) → Prop
  | .seek _ .check :: _ => True
  | _ => False

/-- What runs above the stack is about to have the outcome `r` (`some r`), or
    the topmost frame continues (`none`), and all goes on as evaluation does.
    `w₀` is the worker of the root closure, whose outcome is `out`. -/
def Fits (w₀ : W) (out : Option V) (fst snd : A → Prog V) (w : W) :
    Option (Option V) → List (Frame W A V) → Prop
  | some r, .call t k :: st =>
      ∃ ra, r = some ra ∧ Resumes fst snd t ra k fun r' => Fits w₀ out fst snd w (some r') st
  | some r, .inline t ra k :: st =>
      (snd t).eval = some r ∧
        Resumes fst snd t ra k fun r' => Fits w₀ out fst snd w (some r') st
  | some r, .exec t :: st =>
      (∃ v, r = some v ∧ (snd t).eval = some (some v)) ∧ Loops st ∧
        Fits w₀ out fst snd w none st
  | some r, .catchUnwind k :: st =>
      ∃ r', (k r).eval = some r' ∧ Fits w₀ out fst snd w (some r') st
  | some r, .run hs :: _ | some r, .init hs :: _ => r = out ∧ w = w₀ ∧ w₀ ∉ hs
  | none, .pop t ra k :: st | none, .inline t ra k :: st | none, .take t ra k :: st
  | none, .seek (.help t ra k) _ :: st =>
      Resumes fst snd t ra k fun r' => Fits w₀ out fst snd w (some r') st
  | none, .exec t :: st | none, .setLatch t :: st =>
      (∃ v, (snd t).eval = some (some v)) ∧ Loops st ∧ Fits w₀ out fst snd w none st
  | none, .publish t v :: st =>
      (snd t).eval = some (some v) ∧ Loops st ∧ Fits w₀ out fst snd w none st
  | none, .seek .idle _ :: _ | none, .seek .drain _ :: _ => w ≠ w₀
  | none, .seek (.initDrain hs o) _ :: _ | none, .finish hs o :: _ | none, .join hs o :: _ =>
      o = out ∧ w = w₀ ∧ w₀ ∉ hs
  | _, _ => False

/-- The worker's control and stack fit. -/
def Worker.Fits (w₀ : W) (out : Option V) (fst snd : A → Prog V) (w : W)
    (wk : Worker W A V) : Prop :=
  match wk.ctl with
  | .run p => ∃ r, p.eval = some r ∧ Scoped.Fits w₀ out fst snd w (some r) wk.stack
  | .ret v => Scoped.Fits w₀ out fst snd w (some (some v)) wk.stack
  | .unwind => Scoped.Fits w₀ out fst snd w (some none) wk.stack
  | .step => Scoped.Fits w₀ out fst snd w none wk.stack
  | .exited => wk.stack = []
  | .dead => w = w₀ ∧ wk.stack = []

/-- What the frame's call leaves in the queue: what was there when it began,
    and its own task until it has tried to pop it. -/
def Frame.keeps (entry : A → List A) : Frame W A V → List A
  | .call t _ | .pop t _ _ => t :: entry t
  | .pushBack t _ _ _ | .inline t _ _ | .take t _ _ | .seek (.help t _ _) _ => entry t
  | _ => []

/-- The queue `d` is what the topmost call left there, as far as thieves have
    left it, and so on downwards. Outside of calls it is empty. -/
def Held (entry : A → List A) (d : List A) : List (Frame W A V) → Prop
  | [] => d = []
  | .catchUnwind _ :: st => Held entry d st
  | f :: st => d <+: f.keeps entry ∧ Held entry ((f.owns.map entry).getD []) st

/-- The task's closure, its call's second branch, has not been taken. -/
def Ready (s : State W A V) (l : Log A V) (t : A) : Prop :=
  (s.task t).func = some (l.snd t) ∧ l.starts t = 0

/-- The task's closure was taken once, and its value is in the task. -/
def Done (s : State W A V) (l : Log A V) (t : A) : Prop :=
  l.starts t = 1 ∧ ∃ v, (s.task t).result = some v ∧ (l.snd t).eval = some (some v)

/-- The task whose closure the frame runs or has run. -/
def Frame.begun : Frame W A V → Option A
  | .inline t _ _ | .exec t | .publish t _ | .setLatch t => some t
  | _ => none

/-- The tasks whose closures the worker has taken. -/
def Worker.begun (wk : Worker W A V) : List A :=
  match wk.fresh with
  | some _ => wk.stack.tail.filterMap Frame.begun
  | none => wk.stack.filterMap Frame.begun

/-- What holds of one worker. -/
structure Worker.Faithful (w₀ : W) (out : Option V) (s : State W A V) (l : Log A V) (w : W)
    (wk : Worker W A V) : Prop where
  fits : wk.Fits w₀ out l.fst l.snd w
  held : Held l.entry wk.deque wk.stack
  robbed : ∀ f ∈ wk.stack, ∀ t, f.owns = some t → ∀ y ∈ f.keeps l.entry,
    (y ∈ wk.deque ↔ y ∉ l.robbed t)
  queued : ∀ t ∈ wk.deque, Ready s l t
  fresh : ∀ t, wk.fresh = some t → Ready s l t
  begun : ∀ t ∈ wk.begun, l.starts t = 1
  done : ∀ t st, wk.stack = .setLatch t :: st → Done s l t
  seen : ∀ t ra k st, wk.stack = .take t ra k :: st → (s.task t).latch = true

/-- What holds of the engine and its history. -/
structure Faithful (w₀ : W) (out : Option V) (s : State W A V) (l : Log A V) : Prop where
  inv : Inv s
  ok : ∀ w, (s.worker w).Faithful w₀ out s l w
  latched : ∀ t, (s.task t).live = true → (s.task t).latch = true → Done s l t
  once : ∀ t, l.starts t ≤ 1
  running : s.aborted = false

/-- The tasks that a frame is about: its call's and the one it executes. -/
def Frame.mentions (f : Frame W A V) : List A :=
  f.owns.toList ++ f.executes.toList

/-- The tasks a worker's stack is about. -/
def Worker.mentions (wk : Worker W A V) : List A :=
  wk.stack.flatMap Frame.mentions

theorem Resumes.congr {fst snd fst' snd' : A → Prog V} {t : A} {ra : V} {k : V → V → Prog V}
    {F G : Option V → Prop} (h : Resumes fst snd t ra k F) (hfst : fst' t = fst t)
    (hsnd : snd' t = snd t) (hFG : ∀ r, F r → G r) : Resumes fst' snd' t ra k G := by
  obtain ⟨ha, rb, r, hb, hr, hF⟩ := h
  exact ⟨hfst ▸ ha, rb, r, hsnd ▸ hb, hr, hFG r hF⟩

/-- Only the branches of the tasks on the stack matter. -/
theorem fits_congr {w₀ : W} {out : Option V} {fst snd fst' snd' : A → Prog V} {w : W} :
    ∀ (st : List (Frame W A V)) (c : Option (Option V)),
      (∀ t ∈ st.flatMap Frame.mentions, fst' t = fst t ∧ snd' t = snd t) →
      Fits w₀ out fst snd w c st → Fits w₀ out fst' snd' w c st := by
  intro st
  -- A frame's demand is about its own task; the rest is that of the frames below.
  induction st with
  | nil => exact fun c _ h => by cases c <;> exact h
  | cons f st ih =>
      intro c hl h
      have hrest : ∀ t ∈ st.flatMap Frame.mentions, fst' t = fst t ∧ snd' t = snd t := by
        intro t ht
        exact hl t (by rw [List.flatMap_cons]; exact List.mem_append_right _ ht)
      have hhead : ∀ t ∈ f.mentions, fst' t = fst t ∧ snd' t = snd t := by
        intro t ht
        exact hl t (by rw [List.flatMap_cons]; exact List.mem_append_left _ ht)
      have howns : ∀ t, f.owns = some t → fst' t = fst t ∧ snd' t = snd t := by
        intro t ht
        exact hhead t (by simp [Frame.mentions, ht])
      have hexec : ∀ t, f.executes = some t → snd' t = snd t := by
        intro t ht
        exact (hhead t (by simp [Frame.mentions, ht])).2
      cases c with
      | some r =>
          cases f with
          | call t k =>
              obtain ⟨ra, hr, hres⟩ := h
              have ht := howns t rfl
              exact ⟨ra, hr, hres.congr ht.1 ht.2 fun r' => ih _ hrest⟩
          | inline t ra k =>
              have ht := howns t rfl
              exact ⟨ht.2 ▸ h.1, h.2.congr ht.1 ht.2 fun r' => ih _ hrest⟩
          | exec t =>
              obtain ⟨⟨v, hr, hv⟩, hloop, hst⟩ := h
              exact ⟨⟨v, hr, hexec t rfl ▸ hv⟩, hloop, ih _ hrest hst⟩
          | catchUnwind k =>
              obtain ⟨r', hk, hst⟩ := h
              exact ⟨r', hk, ih _ hrest hst⟩
          | _ => exact h
      | none =>
          cases f with
          | pop t ra k | inline t ra k | take t ra k =>
              have ht := howns t rfl
              exact Resumes.congr h ht.1 ht.2 fun r' => ih _ hrest
          | seek loop r =>
              cases loop with
              | help t ra k =>
                  have ht := howns t rfl
                  exact Resumes.congr h ht.1 ht.2 fun r' => ih _ hrest
              | _ => exact h
          | exec t | setLatch t =>
              obtain ⟨⟨v, hv⟩, hloop, hst⟩ := h
              exact ⟨⟨v, hexec t rfl ▸ hv⟩, hloop, ih _ hrest hst⟩
          | publish t v =>
              obtain ⟨hv, hloop, hst⟩ := h
              exact ⟨hexec t rfl ▸ hv, hloop, ih _ hrest hst⟩
          | _ => exact h

theorem Worker.Fits.congr {w₀ : W} {out : Option V} {fst snd fst' snd' : A → Prog V} {w : W}
    {wk : Worker W A V} (h : wk.Fits w₀ out fst snd w)
    (hl : ∀ t ∈ wk.mentions, fst' t = fst t ∧ snd' t = snd t) :
    wk.Fits w₀ out fst' snd' w := by
  unfold Worker.Fits at h ⊢
  cases hctl : wk.ctl with
  | run p =>
      rw [hctl] at h
      obtain ⟨r, hr, hst⟩ := h
      exact ⟨r, hr, fits_congr _ _ hl hst⟩
  | ret v | unwind | step =>
      rw [hctl] at h
      exact fits_congr _ _ hl h
  | exited | dead =>
      rw [hctl] at h
      exact h

theorem held_cons {entry : A → List A} {d : List A} {f : Frame W A V} {st : List (Frame W A V)}
    (hf : ∀ k, f ≠ .catchUnwind k) :
    Held entry d (f :: st) ↔
      d <+: f.keeps entry ∧ Held entry ((f.owns.map entry).getD []) st := by
  cases f with
  | catchUnwind k => exact absurd rfl (hf k)
  | _ => exact Iff.rfl

/-- Thieves only shorten a queue. -/
theorem Held.mono {entry : A → List A} {d d' : List A} :
    ∀ {st : List (Frame W A V)}, Held entry d st → d' <+: d → Held entry d' st := by
  intro st
  induction st with
  | nil =>
      intro h hd
      change d = [] at h
      subst h
      exact List.prefix_nil.mp hd
  | cons f st ih =>
      intro h hd
      by_cases hf : ∃ k, f = .catchUnwind k
      · obtain ⟨k, rfl⟩ := hf
        exact ih h hd
      · have hf' : ∀ k, f ≠ .catchUnwind k := fun k hk => hf ⟨k, hk⟩
        rw [held_cons hf'] at h ⊢
        exact ⟨hd.trans h.1, h.2⟩

theorem Frame.keeps_subset (entry : A → List A) (f : Frame W A V) :
    f.keeps entry ⊆ f.owns.toList ++ (f.owns.map entry).getD [] := by
  cases f with
  | seek loop r => cases loop <;> simp [Frame.keeps, Frame.owns]
  | _ => simp [Frame.keeps, Frame.owns]

theorem Held.subset {entry : A → List A} :
    ∀ {st : List (Frame W A V)} {d : List A}, Held entry d st → d ⊆ st.filterMap Frame.owns := by
  intro st
  -- By induction on the stack, from its top.
  induction st with
  | nil =>
      intro d h
      change d = [] at h
      rw [h]
      exact List.nil_subset _
  | cons f st ih =>
      intro d h
      by_cases hf : ∃ k, f = .catchUnwind k
      · obtain ⟨k, rfl⟩ := hf
        simpa only [List.filterMap_cons, Frame.owns] using ih h
      · have hf' : ∀ k, f ≠ .catchUnwind k := fun k hk => hf ⟨k, hk⟩
        rw [held_cons hf'] at h
        intro y hy
        have hkeep := f.keeps_subset entry (h.1.subset hy)
        have hrest := ih h.2
        cases ho : f.owns with
        | none =>
            rw [ho] at hkeep
            exact absurd hkeep List.not_mem_nil
        | some t =>
            rw [ho] at hkeep hrest
            rw [List.filterMap_cons, ho]
            rcases List.mem_cons.mp hkeep with rfl | hmem
            · exact List.mem_cons_self
            · exact List.mem_cons_of_mem _ (hrest hmem)

/-- What a call finds queued are tasks of calls below it, and its own. -/
theorem Held.keeps_subset {entry : A → List A} :
    ∀ {st : List (Frame W A V)} {d : List A}, Held entry d st →
      ∀ f ∈ st, f.keeps entry ⊆ st.filterMap Frame.owns := by
  intro st
  induction st with
  | nil => exact fun _ f hf => absurd hf List.not_mem_nil
  | cons g st ih =>
      intro d h f hf
      have hcons : st.filterMap Frame.owns ⊆ (g :: st).filterMap Frame.owns := by
        rw [List.filterMap_cons]
        split
        · exact List.Subset.refl _
        · exact List.subset_cons_self _ _
      have hbelow : ∃ d', Held entry d' st := by
        by_cases hg : ∃ k, g = .catchUnwind k
        · obtain ⟨k, rfl⟩ := hg
          exact ⟨d, h⟩
        · exact ⟨_, ((held_cons fun k hk => hg ⟨k, hk⟩).mp h).2⟩
      obtain ⟨d', hd'⟩ := hbelow
      rcases List.mem_cons.mp hf with rfl | hmem
      · -- The frame's own queue is held by the frames below it.
        have hown : Held entry (f.keeps entry) (f :: st) →
            f.keeps entry ⊆ (f :: st).filterMap Frame.owns := Held.subset
        refine hown ?_
        by_cases hg : ∃ k, f = .catchUnwind k
        · obtain ⟨k, rfl⟩ := hg
          exact Held.mono h List.nil_prefix
        · have hf' : ∀ k, f ≠ .catchUnwind k := fun k hk => hg ⟨k, hk⟩
          exact (held_cons hf').mpr ⟨List.prefix_refl _, ((held_cons hf').mp h).2⟩
      · exact List.Subset.trans (ih hd' f hmem) hcons

theorem Held.nodup {entry : A → List A} :
    ∀ {st : List (Frame W A V)} {d : List A}, Held entry d st →
      (st.filterMap Frame.owns).Nodup → d.Nodup := by
  intro st
  -- A frame with a task of its own has it on top of what those below it have queued.
  induction st with
  | nil =>
      intro d h _
      change d = [] at h
      rw [h]
      exact List.nodup_nil
  | cons f st ih =>
      intro d h hnd
      by_cases hf : ∃ k, f = .catchUnwind k
      · obtain ⟨k, rfl⟩ := hf
        exact ih h hnd
      · have hf' : ∀ k, f ≠ .catchUnwind k := fun k hk => hf ⟨k, hk⟩
        rw [held_cons hf'] at h
        refine List.Nodup.sublist h.1.sublist ?_
        cases ho : f.owns with
        | none =>
            have hnil := f.keeps_subset entry
            rw [ho] at hnil
            rw [List.subset_nil.mp hnil]
            exact List.nodup_nil
        | some t =>
            rw [List.filterMap_cons, ho] at hnd
            rw [ho] at h
            have hentry := ih h.2 hnd.of_cons
            have hnew : t ∉ entry t := fun hmem =>
              (List.nodup_cons.mp hnd).1 (h.2.subset hmem)
            cases f with
            | call t' k | pop t' ra k =>
                cases ho
                exact List.nodup_cons.mpr ⟨hnew, hentry⟩
            | pushBack t' ra k x | inline t' ra k | take t' ra k =>
                cases ho
                exact hentry
            | seek loop r =>
                cases loop with
                | help t' ra k =>
                    cases ho
                    exact hentry
                | _ => cases ho
            | _ => cases ho

/-- A queue that thieves have shortened, by what they took. -/
theorem eq_filter_of_prefix [DecidableEq A] {d e r : List A} (h : d <+: e) (hnd : e.Nodup)
    (hiff : ∀ y ∈ e, (y ∈ d ↔ y ∉ r)) : d = e.filter (fun y => y ∉ r) := by
  obtain ⟨rest, rfl⟩ := h
  rw [List.filter_append]
  have hkept : d.filter (fun y => y ∉ r) = d := by
    refine List.filter_eq_self.mpr fun y hy => ?_
    exact decide_eq_true ((hiff y (List.mem_append_left _ hy)).mp hy)
  have hgone : rest.filter (fun y => y ∉ r) = [] := by
    refine List.filter_eq_nil_iff.mpr fun y hy hno => ?_
    have hyd := (hiff y (List.mem_append_right _ hy)).mpr (of_decide_eq_true hno)
    exact (List.nodup_append.mp hnd).2.2 y hyd y hy rfl
  rw [hkept, hgone, List.append_nil]

theorem Frame.keeps_congr {entry entry' : A → List A} {f : Frame W A V}
    (h : ∀ t, f.owns = some t → entry' t = entry t) : f.keeps entry' = f.keeps entry := by
  cases f with
  | call t k | pop t ra k | pushBack t ra k x | inline t ra k | take t ra k =>
      simp only [Frame.keeps, h t rfl]
  | seek loop r =>
      cases loop with
      | help t ra k => exact h t rfl
      | _ => rfl
  | _ => rfl

theorem held_congr {entry entry' : A → List A} :
    ∀ {st : List (Frame W A V)} {d : List A},
      (∀ t ∈ st.filterMap Frame.owns, entry' t = entry t) →
      Held entry d st → Held entry' d st := by
  intro st
  -- Each frame asks for the entry of its own task only.
  induction st with
  | nil => exact fun _ h => h
  | cons f st ih =>
      intro d hl h
      have howns : ∀ t, f.owns = some t → entry' t = entry t := by
        intro t ht
        exact hl t (List.mem_filterMap.mpr ⟨f, List.mem_cons_self, ht⟩)
      have hrest : ∀ t ∈ st.filterMap Frame.owns, entry' t = entry t := by
        intro t ht
        rcases List.mem_filterMap.mp ht with ⟨g, hg, hgt⟩
        exact hl t (List.mem_filterMap.mpr ⟨g, List.mem_cons_of_mem _ hg, hgt⟩)
      by_cases hf : ∃ k, f = .catchUnwind k
      · obtain ⟨k, rfl⟩ := hf
        exact ih hrest h
      · have hf' : ∀ k, f ≠ .catchUnwind k := fun k hk => hf ⟨k, hk⟩
        rw [held_cons hf'] at h ⊢
        rw [Frame.keeps_congr howns]
        refine ⟨h.1, ?_⟩
        cases ho : f.owns with
        | none =>
            rw [ho] at h
            exact ih hrest h.2
        | some t =>
            rw [ho] at h
            simp only [Option.map_some, Option.getD_some, howns t ho] at h ⊢
            exact ih hrest h.2

/-- The task whose memory the frame's next operations are about. -/
def Frame.uses : Frame W A V → Option A
  | .inline t _ _ | .take t _ _ | .exec t | .publish t _ | .setLatch t => some t
  | _ => none

/-- The tasks whose memory belongs to the worker. -/
def Worker.uses (wk : Worker W A V) : List A :=
  wk.deque ++ wk.stack.filterMap Frame.uses

theorem Frame.uses_cases {f : Frame W A V} {t : A} (h : f.uses = some t) :
    f.executes = some t ∨ (f.consumed = some t ∧ f.owns = some t) := by
  cases f <;> simp_all [Frame.uses, Frame.executes, Frame.consumed, Frame.owns]

/-- A task's memory belongs to one worker. -/
theorem Inv.uses_unique {s : State W A V} (h : Inv s) {w w' : W} {t : A}
    (ht : t ∈ (s.worker w).uses) (ht' : t ∈ (s.worker w').uses) : w = w' := by
  have split : ∀ v, t ∈ (s.worker v).uses → t ∈ (s.worker v).refs ∨
      (t ∈ (s.worker v).owns ∧ ∀ v', t ∉ (s.worker v').refs) := by
    intro v hv
    rcases List.mem_append.mp hv with hd | hs
    · exact Or.inl (List.mem_append_left _ hd)
    · rcases List.mem_filterMap.mp hs with ⟨f, hf, hft⟩
      rcases Frame.uses_cases hft with hx | ⟨hc, ho⟩
      · exact Or.inl (List.mem_append_right _ (List.mem_filterMap.mpr ⟨f, hf, hx⟩))
      · exact Or.inr ⟨List.mem_filterMap.mpr ⟨f, hf, ho⟩, h.consumed v f t hf hc⟩
  rcases split w ht with hr | ⟨ho, hno⟩
  · rcases split w' ht' with hr' | ⟨-, hno'⟩
    · exact h.refs_unique w w' t hr hr'
    · exact absurd hr (hno' w)
  · rcases split w' ht' with hr' | ⟨ho', -⟩
    · exact absurd hr' (hno w')
    · exact h.owns_unique w w' t ho ho'

theorem Worker.fresh_mem {wk : Worker W A V} {t : A} (h : wk.fresh = some t) :
    ∃ f ∈ wk.stack, f.uses = some t ∧ t ∈ f.mentions := by
  unfold Worker.fresh at h
  split at h
  · rename_i hst
    cases h
    exact ⟨_, hst ▸ List.mem_cons_self, rfl, by simp [Frame.mentions, Frame.executes]⟩
  · rename_i hst
    cases h
    exact ⟨_, hst ▸ List.mem_cons_self, rfl, by simp [Frame.mentions, Frame.owns]⟩
  · cases h

theorem Worker.begun_subset (wk : Worker W A V) : wk.begun ⊆ wk.stack.filterMap Frame.begun := by
  intro t ht
  unfold Worker.begun at ht
  split at ht
  · rcases List.mem_filterMap.mp ht with ⟨f, hf, hft⟩
    exact List.mem_filterMap.mpr ⟨f, List.mem_of_mem_tail hf, hft⟩
  · exact ht

theorem Frame.uses_of_begun {f : Frame W A V} {t : A} (h : f.begun = some t) :
    f.uses = some t := by
  cases f <;> simp_all [Frame.begun, Frame.uses]

theorem Worker.mentions_of_owns {wk : Worker W A V} {t : A} (h : t ∈ wk.owns) :
    t ∈ wk.mentions := by
  rcases List.mem_filterMap.mp h with ⟨f, hf, hft⟩
  exact List.mem_flatMap.mpr ⟨f, hf, by simp [Frame.mentions, hft]⟩

/-- A worker that takes no step, while others write to tasks and to the history
    of tasks that are not its own. -/
theorem Worker.Faithful.frame {w₀ : W} {out : Option V} {s s' : State W A V} {l l' : Log A V}
    {w : W} {wk : Worker W A V} (h : wk.Faithful w₀ out s l w)
    (hprog : ∀ t ∈ wk.mentions, l'.fst t = l.fst t ∧ l'.snd t = l.snd t)
    (hqueue : ∀ t ∈ wk.owns, l'.entry t = l.entry t ∧ l'.robbed t = l.robbed t)
    (huses : ∀ t ∈ wk.uses, s'.task t = s.task t ∧ l'.starts t = l.starts t) :
    wk.Faithful w₀ out s' l' w := by
  -- Every frame's task is among those that the worker uses.
  have hmem : ∀ f ∈ wk.stack, ∀ t, f.uses = some t → t ∈ wk.uses := by
    intro f hf t ht
    exact List.mem_append_right _ (List.mem_filterMap.mpr ⟨f, hf, ht⟩)
  have hsnd : ∀ f ∈ wk.stack, ∀ t ∈ f.mentions, l'.snd t = l.snd t := by
    intro f hf t ht
    exact (hprog t (List.mem_flatMap.mpr ⟨f, hf, ht⟩)).2
  constructor
  · exact h.fits.congr hprog
  · exact held_congr (fun t ht => (hqueue t ht).1) h.held
  · intro f hf t ht y hy
    have hown : ∀ t', f.owns = some t' → l'.entry t' = l.entry t' := fun t' ht' =>
      (hqueue t' (List.mem_filterMap.mpr ⟨f, hf, ht'⟩)).1
    rw [Frame.keeps_congr hown] at hy
    rw [(hqueue t (List.mem_filterMap.mpr ⟨f, hf, ht⟩)).2]
    exact h.robbed f hf t ht y hy
  · intro t ht
    obtain ⟨htask, hstarts⟩ := huses t (List.mem_append_left _ ht)
    have hown := hprog t (Worker.mentions_of_owns (h.held.subset ht))
    rw [Ready, htask, hstarts, hown.2]
    exact h.queued t ht
  · intro t ht
    obtain ⟨f, hf, hft, hm⟩ := Worker.fresh_mem ht
    obtain ⟨htask, hstarts⟩ := huses t (hmem f hf t hft)
    rw [Ready, htask, hstarts, hsnd f hf t hm]
    exact h.fresh t ht
  · intro t ht
    rcases List.mem_filterMap.mp (wk.begun_subset ht) with ⟨f, hf, hft⟩
    rw [(huses t (hmem f hf t (Frame.uses_of_begun hft))).2]
    exact h.begun t ht
  · intro t st hst
    have hf : Frame.setLatch t ∈ wk.stack := hst ▸ List.mem_cons_self
    obtain ⟨htask, hstarts⟩ := huses t (hmem _ hf t rfl)
    rw [Done, htask, hstarts, hsnd _ hf t (by simp [Frame.mentions, Frame.executes])]
    exact h.done t st hst
  · intro t ra k st hst
    have hf : Frame.take t ra k ∈ wk.stack := hst ▸ List.mem_cons_self
    rw [(huses t (hmem _ hf t rfl)).1]
    exact h.seen t ra k st hst

variable [DecidableEq W]

/-- What a step of one worker has to keep. -/
theorem Faithful.update {w₀ : W} {out : Option V} {s s' : State W A V} {l l' : Log A V}
    (h : Faithful w₀ out s l) (hinv : Inv s') (w : W) (wk : Worker W A V)
    (hworker : s'.worker = Function.update s.worker w wk) (hown : wk.Faithful w₀ out s' l' w)
    (hprog : ∀ t, (l'.fst t = l.fst t ∧ l'.snd t = l.snd t) ∨
      ∀ w', w' ≠ w → t ∉ (s.worker w').mentions)
    (hqueue : ∀ t, (l'.entry t = l.entry t ∧ l'.robbed t = l.robbed t) ∨
      ∀ w', w' ≠ w → t ∉ (s.worker w').owns)
    (huses : ∀ t, (s'.task t = s.task t ∧ l'.starts t = l.starts t) ∨
      ∀ w', w' ≠ w → t ∉ (s.worker w').uses)
    (hlatched : ∀ t, (s'.task t).live = true → (s'.task t).latch = true → Done s' l' t)
    (honce : ∀ t, l'.starts t ≤ 1) (hrun : s'.aborted = s.aborted) :
    Faithful w₀ out s' l' := by
  refine ⟨hinv, ?_, hlatched, honce, hrun.trans h.running⟩
  intro w'
  rcases worker_cases hworker w' with ⟨rfl, hw⟩ | ⟨hne, hw⟩
  · rw [hw]
    exact hown
  · rw [hw]
    refine (h.ok w').frame ?_ ?_ ?_
    · exact fun t ht => (hprog t).resolve_right fun hno => hno w' hne ht
    · exact fun t ht => (hqueue t).resolve_right fun hno => hno w' hne ht
    · exact fun t ht => (huses t).resolve_right fun hno => hno w' hne ht

end Scoped

end Cmpth

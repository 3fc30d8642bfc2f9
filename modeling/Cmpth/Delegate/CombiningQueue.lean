import Cmpth.Delegate.Combining

/-!
# The Queue of `CombiningDelegator`

The nodes from the one the holder is at to the tail. Each is linked to its
successor, which then sleeps, or its successor is about to do that.

## Main definitions

* `Follows`: A caller is behind another.
* `Queue`: The nodes from one to the tail.
* `Still`: A caller in the queue has not changed, or has suspended.

## Theorems

* `Queue.congr`: The queue is in its nodes.
* `Queue.append`: A caller swaps the tail.
* `Queue.link`: A caller links its node.
* `Queue.alone`: Only the last node is the tail.
* `Queue.tail_mem`, `Queue.tail_ne_nil`, `Queue.waits`, `Queue.of_next`, `Queue.prev_mem`: Who is in
  the queue, and behind whom.
-/

namespace Cmpth

namespace Delegate

namespace Combining

variable {K Req Resp : Type*} {f g : K → Caller K Req Resp} {tail : Option K} {c : K}
  {w : List K}

/-- The caller `b` is behind `a`: asleep and linked, or about to be. -/
def Follows (f : K → Caller K Req Resp) (a b : K) : Prop :=
  ((f a).next = some (b, (f b).asked.isNone) ∧ (f b).pc = .asleep) ∨
    ((f a).next = none ∧ ((f b).pc = .swapped a ∨ (f b).pc = .parked a))

/-- The nodes behind `c`, to the tail. -/
def Queue (f : K → Caller K Req Resp) (tail : Option K) : K → List K → Prop
  | c, [] => (f c).next = none ∧ tail = some c
  | c, b :: w => Follows f c b ∧ Queue f tail b w

/-- Nothing has changed for whoever is in front of the caller. -/
def Still (f g : K → Caller K Req Resp) (b : K) : Prop :=
  (g b).asked = (f b).asked ∧
    ((g b).pc = (f b).pc ∨ ∃ a, (f b).pc = .swapped a ∧ (g b).pc = .parked a)

/-- The queue is in its nodes. -/
theorem Queue.congr (h : Queue f tail c w) (hnext : ∀ a ∈ c :: w, (g a).next = (f a).next)
    (hw : ∀ b ∈ w, Still f g b) : Queue g tail c w := by
  induction w generalizing c with
  | nil => exact ⟨(hnext c List.mem_cons_self).trans h.1, h.2⟩
  | cons b w ih =>
      rcases h with ⟨hb, hrest⟩
      refine ⟨?_, ih hrest (fun a ha => hnext a (List.mem_cons_of_mem _ ha))
        fun x hx => hw x (List.mem_cons_of_mem _ hx)⟩
      rcases hw b List.mem_cons_self with ⟨hasked, hpc | ⟨a, hpc, hpc'⟩⟩
      · unfold Follows
        rw [hnext c List.mem_cons_self, hpc, hasked]
        exact hb
      · -- The caller behind has suspended.
        rcases hb with ⟨_, hx⟩ | ⟨hn, hx | hx⟩ <;> rw [hpc] at hx <;> cases hx
        exact .inr ⟨(hnext c List.mem_cons_self).trans hn, .inr hpc'⟩

/-- The tail is one of the nodes. -/
theorem Queue.tail_mem (h : Queue f tail c w) : ∃ t ∈ c :: w, tail = some t := by
  induction w generalizing c with
  | nil => exact ⟨c, List.mem_cons_self, h.2⟩
  | cons b w ih =>
      rcases ih h.2 with ⟨t, ht, htail⟩
      exact ⟨t, List.mem_cons_of_mem _ ht, htail⟩

/-- Only the last node is the tail. -/
theorem Queue.alone (h : Queue f (some c) c w) (hc : c ∉ w) : w = [] := by
  cases w with
  | nil => rfl
  | cons b w =>
      rcases h.2.tail_mem with ⟨t, ht, htail⟩
      cases htail
      exact absurd ht hc

theorem Queue.tail_ne_nil (h : Queue f tail c w) (ht : tail ≠ some c) : w ≠ [] := by
  rintro rfl
  exact ht h.2

/-- Whoever is in the queue sleeps, or is about to. -/
theorem Queue.waits (h : Queue f tail c w) {b : K} (hb : b ∈ w) :
    (f b).pc = .asleep ∨ ∃ a ∈ c :: w, (f b).pc = .swapped a ∨ (f b).pc = .parked a := by
  induction w generalizing c with
  | nil => exact absurd hb List.not_mem_nil
  | cons x w ih =>
      rcases List.mem_cons.mp hb with rfl | hb
      · rcases h.1 with ⟨_, hpc⟩ | ⟨_, hpc⟩
        · exact .inl hpc
        · exact .inr ⟨c, List.mem_cons_self, hpc⟩
      · rcases ih h.2 hb with hpc | ⟨a, ha, hpc⟩
        · exact .inl hpc
        · exact .inr ⟨a, List.mem_cons_of_mem _ ha, hpc⟩

/-- The link of the first node leads to the next one. -/
theorem Queue.of_next (h : Queue f tail c w) {n : K} {lock : Bool}
    (hn : (f c).next = some (n, lock)) :
    ∃ l, w = n :: l ∧ lock = (f n).asked.isNone ∧ (f n).pc = .asleep ∧ Queue f tail n l := by
  cases w with
  | nil =>
      rw [h.1] at hn
      cases hn
  | cons b w =>
      rcases h with ⟨⟨hb, hpc⟩ | ⟨hb, _⟩, hrest⟩
      · rw [hb] at hn
        cases hn
        exact ⟨w, rfl, rfl, hpc, hrest⟩
      · rw [hb] at hn
        cases hn

/-- A caller swaps the tail. -/
theorem Queue.append {t k : K} (h : Queue f (some t) c w) (hk : k ∉ c :: w)
    (hkeep : ∀ a, a ≠ k → g a = f a) (hnext : (g k).next = none)
    (hpc : (g k).pc = .swapped t) : Queue g (some k) c (w ++ [k]) := by
  induction w generalizing c with
  | nil =>
      rcases h with ⟨hc, ht⟩
      cases ht
      have hne : t ≠ k := fun hx => hk (hx ▸ List.mem_cons_self)
      refine ⟨.inr ⟨?_, .inl hpc⟩, hnext, rfl⟩
      rw [hkeep t hne]
      exact hc
  | cons b w ih =>
      have hc : c ≠ k := fun hx => hk (hx ▸ List.mem_cons_self)
      have hb : b ≠ k := fun hx => hk (hx ▸ List.mem_cons_of_mem _ List.mem_cons_self)
      refine ⟨?_, ih h.2 fun hx => hk (List.mem_cons_of_mem _ hx)⟩
      unfold Follows
      rw [hkeep c hc, hkeep b hb]
      exact h.1

/-- A caller links its node behind its predecessor, and sleeps. -/
theorem Queue.link {k prev : K} (h : Queue f tail c w) (hnodup : (c :: w).Nodup) (hk : k ∈ w)
    (hprev : (f k).pc = .parked prev) (hlink : (g prev).next = some (k, (f k).asked.isNone))
    (hpc : (g k).pc = .asleep) (hasked : ∀ b, (g b).asked = (f b).asked)
    (hnext : ∀ a, a ≠ prev → (g a).next = (f a).next) (hpcs : ∀ b, b ≠ k → (g b).pc = (f b).pc) :
    Queue g tail c w := by
  induction w generalizing c with
  | nil => exact absurd hk List.not_mem_nil
  | cons b w ih =>
      rcases h with ⟨hb, hrest⟩
      rcases List.nodup_cons.mp hnodup with ⟨hc, hw⟩
      by_cases hkb : b = k
      · subst hkb
        -- Its predecessor is the first node, and the others are as they were.
        have heq : prev = c := by
          rcases hb with ⟨_, hx⟩ | ⟨_, hx | hx⟩ <;> rw [hprev] at hx <;> cases hx
          rfl
        subst heq
        have hbw := (List.nodup_cons.mp hw).1
        refine ⟨.inl ⟨?_, hpc⟩, hrest.congr (fun a ha => hnext a ?_)
          fun x hx => ⟨hasked x, .inl (hpcs x ?_)⟩⟩
        · rw [hlink, hasked]
        · rintro rfl
          exact hc ha
        · rintro rfl
          exact hbw hx
      · have hkw : k ∈ w := (List.mem_cons.mp hk).resolve_left (Ne.symm hkb)
        have hmem : prev ∈ b :: w := by
          rcases hrest.waits hkw with hx | ⟨a, ha, hx | hx⟩ <;> rw [hprev] at hx <;> cases hx
          exact ha
        have hcp : c ≠ prev := by
          rintro rfl
          exact hc hmem
        refine ⟨?_, ih hrest hw hkw⟩
        unfold Follows
        rw [hnext c hcp, hpcs b hkb, hasked]
        exact hb

/-- Whoever is about to link its node is behind another, which has no link. -/
theorem Queue.prev_mem (h : Queue f tail c w) (hnodup : (c :: w).Nodup) {k prev : K} (hk : k ∈ w)
    (hprev : (f k).pc = .parked prev) : prev ∈ c :: w ∧ prev ≠ k ∧ (f prev).next = none := by
  induction w generalizing c with
  | nil => exact absurd hk List.not_mem_nil
  | cons b w ih =>
      rcases h with ⟨hb, hrest⟩
      rcases List.nodup_cons.mp hnodup with ⟨hc, hw⟩
      by_cases hkb : b = k
      · subst hkb
        rcases hb with ⟨_, hx⟩ | ⟨hn, hx | hx⟩ <;> rw [hprev] at hx <;> cases hx
        refine ⟨List.mem_cons_self, ?_, hn⟩
        rintro rfl
        exact hc List.mem_cons_self
      · rcases ih hrest hw ((List.mem_cons.mp hk).resolve_left (Ne.symm hkb)) with ⟨hm, hne⟩
        exact ⟨List.mem_cons_of_mem _ hm, hne⟩

end Combining

end Delegate

end Cmpth

import Mathlib.Data.List.Nodup

/-!
# Elements on queues

Every element has at most one place, and each queue holds the elements whose place it is, once.
-/

namespace Pintos.Base

open scoped List

variable {α κ : Type*}

/-- The queues hold the elements placed on them, each once. -/
structure Placed (place : α → Option κ) (queue : κ → List α) : Prop where
  mem_iff : ∀ k a, a ∈ queue k ↔ place a = some k
  nodup : ∀ k, (queue k).Nodup

namespace Placed

variable {place place' : α → Option κ} {queue queue' : κ → List α}

theorem unique (h : Placed place queue) {a : α} {j k : κ} (hj : a ∈ queue j) (hk : a ∈ queue k) :
    j = k := by
  rw [h.mem_iff] at hj hk
  exact Option.some.inj (hj.symm.trans hk)

theorem notMem (h : Placed place queue) {a : α} (ha : place a = none) (k : κ) : a ∉ queue k := by
  simp [h.mem_iff, ha]

theorem count_eq_one [DecidableEq α] (h : Placed place queue) {a : α} {k : κ}
    (ha : place a = some k) : (queue k).count a = 1 :=
  List.count_eq_one_of_mem (h.nodup k) ((h.mem_iff k a).mpr ha)

theorem perm (h : Placed place queue) (hq : ∀ k, queue' k ~ queue k) : Placed place queue' where
  mem_iff k a := (hq k).mem_iff.trans (h.mem_iff k a)
  nodup k := (hq k).nodup_iff.mpr (h.nodup k)

/-- An element that was on no queue joins the queue of its new place. -/
theorem join (h : Placed place queue) (a : α) (ha : place a = none)
    (hp : ∀ b, b ≠ a → place' b = place b)
    (hq : ∀ k, (place' a = some k ∧ queue' k ~ a :: queue k) ∨
      (place' a ≠ some k ∧ queue' k ~ queue k)) : Placed place' queue' where
  mem_iff k b := by
    rcases hq k with ⟨hk, hperm⟩ | ⟨hk, hperm⟩
    · rw [hperm.mem_iff, List.mem_cons, h.mem_iff]
      by_cases hb : b = a
      · simp [hb, hk]
      · simp [hb, hp b hb]
    · rw [hperm.mem_iff, h.mem_iff]
      by_cases hb : b = a
      · simp [hb, hk, ha]
      · simp [hp b hb]
  nodup k := by
    rcases hq k with ⟨_, hperm⟩ | ⟨_, hperm⟩
    · rw [hperm.nodup_iff, List.nodup_cons]
      exact ⟨h.notMem ha k, h.nodup k⟩
    · exact hperm.nodup_iff.mpr (h.nodup k)

theorem leave (h : Placed place queue) (a : α) (ha : place' a = none)
    (hp : ∀ b, b ≠ a → place' b = place b)
    (hq : ∀ k, (place a = some k ∧ queue k ~ a :: queue' k) ∨
      (place a ≠ some k ∧ queue' k ~ queue k)) : Placed place' queue' where
  mem_iff k b := by
    rcases hq k with ⟨hk, hperm⟩ | ⟨hk, hperm⟩
    · have hnd := hperm.nodup_iff.mp (h.nodup k)
      by_cases hb : b = a
      · simp [hb, ha, (List.nodup_cons.mp hnd).1]
      · rw [hp b hb, ← h.mem_iff, hperm.mem_iff]
        simp [hb]
    · rw [hperm.mem_iff, h.mem_iff]
      by_cases hb : b = a
      · simp [hb, ha, hk]
      · rw [hp b hb]
  nodup k := by
    rcases hq k with ⟨_, hperm⟩ | ⟨_, hperm⟩
    · exact (List.nodup_cons.mp (hperm.nodup_iff.mp (h.nodup k))).2
    · exact hperm.nodup_iff.mpr (h.nodup k)

end Placed

end Pintos.Base

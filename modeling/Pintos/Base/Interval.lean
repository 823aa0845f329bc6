import Mathlib.Data.List.Basic

/-!
# Intervals of numbers

A list of pairwise disjoint intervals, from which an interval is taken away: what remains of each
one is at most two pieces.
-/

namespace Pintos.Base

/-- The `cnt` numbers from `first` on. -/
structure Interval where
  first : Nat
  cnt : Nat
  deriving DecidableEq, Repr

namespace Interval

variable {r s q : Interval} {p : Nat}

/-- The number is in the interval. -/
def Has (r : Interval) (p : Nat) : Prop := r.first ≤ p ∧ p < r.first + r.cnt

instance : Decidable (r.Has p) := inferInstanceAs (Decidable (_ ∧ _))

/-- No number is in both. -/
def Disjoint (r s : Interval) : Prop := ∀ p, r.Has p → ¬ s.Has p

theorem disjoint_of_le (h : r.first + r.cnt ≤ s.first) : Disjoint r s := by
  intro p hp hp'
  unfold Has at hp hp'
  omega

/-- What remains of an interval, as nonempty intervals. -/
def minus (r s : Interval) : List Interval :=
  [⟨r.first, min (r.first + r.cnt) s.first - r.first⟩,
    ⟨max r.first (s.first + s.cnt), r.first + r.cnt - max r.first (s.first + s.cnt)⟩].filter
    fun q => 0 < q.cnt

theorem exists_mem_minus : (∃ q ∈ r.minus s, q.Has p) ↔ r.Has p ∧ ¬ s.Has p := by
  simp only [minus, List.mem_filter, List.mem_cons, List.not_mem_nil, or_false,
    decide_eq_true_eq, Has]
  constructor
  · rintro ⟨q, ⟨rfl | rfl, hpos⟩, hq⟩ <;> simp only at hpos hq <;> omega
  · rintro ⟨hr, hs⟩
    by_cases hlt : p < s.first
    · exact ⟨_, ⟨Or.inl rfl, by simp only; omega⟩, by simp only; omega⟩
    · exact ⟨_, ⟨Or.inr rfl, by simp only; omega⟩, by simp only; omega⟩

theorem Has.of_minus (hq : q ∈ r.minus s) (hp : q.Has p) : r.Has p :=
  (exists_mem_minus.mp ⟨q, hq, hp⟩).1

theorem pairwise_minus (r s : Interval) : (r.minus s).Pairwise Disjoint := by
  refine List.Pairwise.filter _ (List.pairwise_pair.mpr fun p hp hp' => ?_)
  unfold Has at hp hp'
  simp only at hp hp'
  omega

end Interval

end Pintos.Base

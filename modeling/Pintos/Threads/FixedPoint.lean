import Mathlib.Algebra.Group.Nat.Defs
import Mathlib.Algebra.Ring.Int.Defs
import Mathlib.Algebra.Order.Group.Abs
import Mathlib.Algebra.Order.Group.Int
import Pintos.Threads.Mlfqs

/-!
# Fixed-point arithmetic without overflow

Where the value of an expression fits in an `int32_t`, the 32-bit computation gives it; and
`FP_TO_INT_NEAREST` rounds to a nearest integer.
Source `threads/fixedpoint.h:6–18`.
-/

namespace Pintos.Threads.Mlfqs

/-- The value can be held in an `int32_t`. -/
def FitsInt32 (x : Int) : Prop := -2 ^ 31 ≤ x ∧ x < 2 ^ 31

instance (x : Int) : Decidable (FitsInt32 x) := instDecidableAnd

theorem int32_of_fits {x : Int} (h : FitsInt32 x) : int32 x = x := by
  unfold FitsInt32 at h
  unfold int32
  apply Int.bmod_eq_of_le
  · omega
  · omega

theorem F_eq : F = 16384 := by decide

/-- The value that `FP_TO_INT_NEAREST` divides. -/
def roundingTerm (x : Int) : Int := if 0 ≤ x then x + F / 2 else x - F / 2

private theorem fpToIntNearest_eq (x : Int) :
    fpToIntNearest x = (int32 (roundingTerm x)).tdiv F := by
  unfold fpToIntNearest roundingTerm
  split
  · rfl
  · rfl

theorem fpToIntNearest_nearest {x : Int} (h : FitsInt32 (roundingTerm x)) :
    |2 * (F * fpToIntNearest x - x)| ≤ F := by
  rw [fpToIntNearest_eq, int32_of_fits h, F_eq]
  clear h
  unfold roundingTerm
  rw [F_eq, abs_le]
  split
  · next hx =>
    rw [Int.tdiv_eq_ediv_of_nonneg (by omega)]
    omega
  · next hx =>
    have hneg : (x - 16384 / 2).tdiv 16384 = -((-(x - 16384 / 2)) / 16384) := by
      rw [← Int.neg_neg (x - 16384 / 2), Int.neg_tdiv, Int.tdiv_eq_ediv_of_nonneg (by omega),
        Int.neg_neg]
    rw [hneg]
    omega

end Pintos.Threads.Mlfqs

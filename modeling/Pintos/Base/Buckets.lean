import Mathlib.Data.List.Nodup
import Mathlib.Data.List.Perm.Basic
import Mathlib.Logic.Function.Basic

/-!
# Elements in buckets

The elements of the first `n` buckets of an array, as one list. An element put into a bucket, and
one taken out of its bucket, are put into and taken out of the list.
-/

namespace Pintos.Base

universe u

variable {α : Type u} {buckets : Nat → List α} {n i : Nat}

/-- The elements of the first `n` buckets. -/
def bucketContents (buckets : Nat → List α) (n : Nat) : List α := (List.range n).flatMap buckets

theorem mem_bucketContents {e : α} :
    e ∈ bucketContents buckets n ↔ ∃ i < n, e ∈ buckets i := by
  simp only [bucketContents, List.mem_flatMap, List.mem_range]

private theorem bucketContents_succ (buckets : Nat → List α) (n : Nat) :
    bucketContents buckets (n + 1) = bucketContents buckets n ++ buckets n := by
  simp only [bucketContents, List.range_succ, List.flatMap_append, List.flatMap_singleton]

private theorem bucketContents_congr {buckets' : Nat → List α}
    (h : ∀ i < n, buckets' i = buckets i) :
    bucketContents buckets' n = bucketContents buckets n :=
  List.flatMap_congr fun i hi => h i (List.mem_range.mp hi)

theorem bucketContents_nil (n : Nat) : bucketContents (fun _ => ([] : List α)) n = [] :=
  List.flatMap_eq_nil_iff.mpr fun _ _ => rfl

theorem bucketContents_update_cons (hi : i < n) (e : α) :
    (bucketContents (Function.update buckets i (e :: buckets i)) n).Perm
      (e :: bucketContents buckets n) := by
  induction n with
  | zero => exact absurd hi (Nat.not_lt_zero i)
  | succ n ih =>
    rw [bucketContents_succ, bucketContents_succ]
    by_cases hin : i = n
    · have hbefore : bucketContents (Function.update buckets i (e :: buckets i)) n =
          bucketContents buckets n :=
        bucketContents_congr fun j hj => Function.update_of_ne (by omega) _ _
      rw [hbefore, hin, Function.update_self]
      exact List.perm_middle
    · rw [Function.update_of_ne (Ne.symm hin)]
      exact (ih (by omega)).append_right _

theorem bucketContents_erase [DecidableEq α] (hnodup : (bucketContents buckets n).Nodup) (e : α) :
    bucketContents (fun i => (buckets i).erase e) n = (bucketContents buckets n).erase e := by
  rw [hnodup.erase_eq_filter, bucketContents, bucketContents, List.filter_flatMap]
  refine List.flatMap_congr fun i hi => ?_
  exact ((List.nodup_flatMap.mp hnodup).1 i hi).erase_eq_filter e

end Pintos.Base

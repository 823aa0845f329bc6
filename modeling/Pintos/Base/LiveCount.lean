import Mathlib.Data.List.Count
import Mathlib.Data.List.Nodup
import Mathlib.Logic.Function.Basic

/-!
# Counting live entries of a table

A table is a total function with the list of the addresses that are live. How many live
entries satisfy a test changes by at most one when an entry is added, changed or dropped.
-/

namespace Pintos.Base

variable {α β : Type*} [DecidableEq α] {l : List α} {g : α → β} {p : β → Bool} {a : α} {x : β}

theorem countP_update_cons (ha : a ∉ l) :
    (a :: l).countP (fun b => p (Function.update g a x b)) =
      l.countP (fun b => p (g b)) + if p x then 1 else 0 := by
  rw [List.countP_cons, Function.update_self]
  congr 1
  apply List.countP_congr
  intro b hb
  rw [Function.update_of_ne (by rintro rfl; exact ha hb)]

theorem countP_erase_add (q : α → Bool) (ha : a ∈ l) :
    (l.erase a).countP q + (if q a then 1 else 0) = l.countP q := by
  rw [List.countP_erase]
  split
  · next h =>
    have hpos : 0 < l.countP q := List.countP_pos_iff.mpr ⟨a, h⟩
    rw [if_pos h.2]
    omega
  · next h =>
    rw [if_neg fun hq => h ⟨ha, hq⟩]
    rfl

end Pintos.Base

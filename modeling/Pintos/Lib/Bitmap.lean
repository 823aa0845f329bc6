import Mathlib.Data.List.Basic

/-!
# Bitmaps

Source `lib/kernel/bitmap.c:143–325`. A bitmap is the list of its bits; the packing into
32-bit words is not observed by the callers modelled here. `BITMAP_ERROR` is `none`. The
index assertions of the source are premises of the laws, not extra results.
-/

namespace Pintos.Lib

/-- The bits of a `struct bitmap`, lowest index first. -/
abbrev Bitmap := List Bool

/-- Value of one bit; `lib/kernel/bitmap.c:196–203`. -/
def bitmapTest (b : Bitmap) (idx : Nat) : Bool := b[idx]?.getD false

/-- Store one bit; `lib/kernel/bitmap.c:143–153`. -/
def bitmapSet (b : Bitmap) (idx : Nat) (value : Bool) : Bitmap := b.set idx value

/-- Does any of `cnt` bits from `start` have this value; `lib/kernel/bitmap.c:248–262`. -/
def bitmapContains (b : Bitmap) (start cnt : Nat) (value : Bool) : Bool :=
  (List.range cnt).any fun i => bitmapTest b (start + i) == value

/-- Do all of `cnt` bits from `start` stand; `lib/kernel/bitmap.c:281–287`. -/
def bitmapAll (b : Bitmap) (start cnt : Nat) : Bool := !bitmapContains b start cnt false

/-- Store `cnt` bits from `start`; `lib/kernel/bitmap.c:216–227`. -/
def bitmapSetMultiple (b : Bitmap) (start cnt : Nat) (value : Bool) : Bitmap :=
  (List.range cnt).foldl (fun b i => bitmapSet b (start + i) value) b

/-- First group of `cnt` bits at or after `start` that all have this value;
`lib/kernel/bitmap.c:291–309`. -/
def bitmapScan (b : Bitmap) (start cnt : Nat) (value : Bool) : Option Nat :=
  if cnt ≤ b.length then
    (List.range' start (b.length - cnt + 1 - start)).find? fun i =>
      !bitmapContains b i cnt (!value)
  else none

/-- Find such a group and invert it; `lib/kernel/bitmap.c:318–325`. -/
def bitmapScanAndFlip (b : Bitmap) (start cnt : Nat) (value : Bool) :
    Option (Nat × Bitmap) :=
  (bitmapScan b start cnt value).map fun i => (i, bitmapSetMultiple b i cnt (!value))

theorem bitmapTest_bitmapSet (b : Bitmap) (i j : Nat) (v : Bool) (hi : i < b.length) :
    bitmapTest (bitmapSet b i v) j = if j = i then v else bitmapTest b j := by
  unfold bitmapTest bitmapSet
  rw [List.getElem?_set]
  by_cases h : i = j
  · subst j
    simp [hi]
  · simp [h, Ne.symm h]

theorem length_bitmapSet (b : Bitmap) (i : Nat) (v : Bool) :
    (bitmapSet b i v).length = b.length := List.length_set

@[simp] theorem bitmapTest_replicate (n i : Nat) :
    bitmapTest (List.replicate n false) i = false := by
  unfold bitmapTest
  rw [List.getElem?_replicate]
  split <;> rfl

theorem lt_length_of_bitmapTest {b : Bitmap} {i : Nat} (h : bitmapTest b i = true) :
    i < b.length := by
  by_contra hn
  unfold bitmapTest at h
  rw [List.getElem?_eq_none (by omega)] at h
  cases h

/-- A successful search for one clear bit finds it inside the bitmap and sets just it. -/
theorem bitmapScanAndFlip_one {b b' : Bitmap} {i : Nat}
    (h : bitmapScanAndFlip b 0 1 false = some (i, b')) :
    i < b.length ∧ bitmapTest b i = false ∧ b' = bitmapSet b i true := by
  unfold bitmapScanAndFlip bitmapScan at h
  split at h
  · next hl =>
    obtain ⟨k, hk, he⟩ := Option.map_eq_some_iff.mp h
    obtain ⟨hi, hb⟩ := Prod.mk.inj he
    subst hi
    have hm := List.mem_of_find?_eq_some hk
    have hp := List.find?_some hk
    have hlt : k < b.length := by
      rw [List.mem_range'] at hm
      obtain ⟨j, hj, hkj⟩ := hm
      omega
    have ht : bitmapTest b k = false := by simpa [bitmapContains] using hp
    refine ⟨hlt, ht, ?_⟩
    rw [← hb]
    simp [bitmapSetMultiple]
  · cases h

theorem bitmap_ext {b c : Bitmap} (hl : b.length = c.length)
    (h : ∀ i < b.length, bitmapTest b i = bitmapTest c i) : b = c := by
  apply List.ext_getElem hl
  intro i hi hi'
  have hbit := h i hi
  unfold bitmapTest at hbit
  rwa [List.getElem?_eq_getElem hi, List.getElem?_eq_getElem hi'] at hbit

private theorem bitmapSetMultiple_succ (b : Bitmap) (start cnt : Nat) (v : Bool) :
    bitmapSetMultiple b start (cnt + 1) v =
      bitmapSet (bitmapSetMultiple b start cnt v) (start + cnt) v := by
  unfold bitmapSetMultiple
  rw [List.range_succ, List.foldl_append]
  rfl

@[simp] theorem length_bitmapSetMultiple (b : Bitmap) (start cnt : Nat) (v : Bool) :
    (bitmapSetMultiple b start cnt v).length = b.length := by
  induction cnt with
  | zero => rfl
  | succ cnt ih => rw [bitmapSetMultiple_succ, length_bitmapSet, ih]

/-- Storing a range of bits reads back, and leaves the other bits alone. -/
theorem bitmapTest_bitmapSetMultiple (b : Bitmap) (start cnt j : Nat) (v : Bool)
    (h : start + cnt ≤ b.length) :
    bitmapTest (bitmapSetMultiple b start cnt v) j =
      if start ≤ j ∧ j < start + cnt then v else bitmapTest b j := by
  induction cnt with
  | zero =>
    rw [if_neg (by omega)]
    rfl
  | succ cnt ih =>
    rw [bitmapSetMultiple_succ,
      bitmapTest_bitmapSet _ _ _ _ (by rw [length_bitmapSetMultiple]; omega), ih (by omega)]
    by_cases hj : j = start + cnt
    · rw [if_pos hj, if_pos (by omega)]
    · rw [if_neg hj]
      apply if_congr _ rfl rfl
      omega

/-- A range does not contain a value just if each of its bits has the other one. -/
theorem bitmapContains_eq_false_iff (b : Bitmap) (start cnt : Nat) (v : Bool) :
    bitmapContains b start cnt v = false ↔ ∀ j < cnt, bitmapTest b (start + j) = !v := by
  unfold bitmapContains
  simp only [List.any_eq_false, List.mem_range, beq_iff_eq]
  apply forall₂_congr
  intro j _
  cases bitmapTest b (start + j) <;> cases v <;> decide

theorem bitmapAll_iff (b : Bitmap) (start cnt : Nat) :
    bitmapAll b start cnt = true ↔ ∀ j < cnt, bitmapTest b (start + j) = true := by
  unfold bitmapAll
  rw [Bool.not_eq_true', bitmapContains_eq_false_iff]
  rfl

/-- A successful search finds a group of the requested size inside the bitmap. -/
theorem bitmapScan_some {b : Bitmap} {start cnt i : Nat} {v : Bool}
    (h : bitmapScan b start cnt v = some i) :
    i + cnt ≤ b.length ∧ ∀ j < cnt, bitmapTest b (i + j) = v := by
  unfold bitmapScan at h
  split at h
  · next hcnt =>
    constructor
    · have hmem := List.mem_of_find?_eq_some h
      rw [List.mem_range'_1] at hmem
      omega
    · have hfree := List.find?_some h
      rw [Bool.not_eq_true', bitmapContains_eq_false_iff] at hfree
      intro j hj
      rw [hfree j hj, Bool.not_not]
  · cases h

/-- A search from the start that fails has found no group of the requested size. -/
theorem bitmapScan_none {b : Bitmap} {cnt : Nat} {v : Bool} (h : bitmapScan b 0 cnt v = none)
    (i : Nat) (hi : i + cnt ≤ b.length) : ∃ j < cnt, bitmapTest b (i + j) = !v := by
  unfold bitmapScan at h
  rw [if_pos (by omega), List.find?_eq_none] at h
  have hcontains := h i (List.mem_range'_1.mpr (by omega))
  rw [Bool.not_eq_true', Bool.not_eq_false] at hcontains
  obtain ⟨j, hj, htest⟩ := List.any_eq_true.mp hcontains
  exact ⟨j, List.mem_range.mp hj, beq_iff_eq.mp htest⟩

theorem bitmapSetMultiple_undo {b : Bitmap} {i cnt : Nat} {v : Bool} (h : i + cnt ≤ b.length)
    (hbits : ∀ j < cnt, bitmapTest b (i + j) = v) :
    bitmapSetMultiple (bitmapSetMultiple b i cnt (!v)) i cnt v = b := by
  apply bitmap_ext
  · simp
  · intro j _
    rw [bitmapTest_bitmapSetMultiple _ _ _ _ _ (by simpa using h)]
    split
    · next hj =>
      rw [← hbits (j - i) (by omega), Nat.add_sub_cancel' hj.1]
    · next hj => rw [bitmapTest_bitmapSetMultiple _ _ _ _ _ h, if_neg hj]

end Pintos.Lib

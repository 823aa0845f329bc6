import Mathlib.Data.List.Sort

/-!
# Steps of a stable sort

Insertion sort is the stable sort of a list. What changes a list without changing its stable sort
is collected here: exchanging neighbours that are out of order, and merging two sorted lists with
ties taken from the first. Insertion behind elements that are equal keeps a list sorted.
-/

namespace Pintos.Base.StableSort

universe u

variable {α : Type u}

/-- Insertion before the first element that is strictly greater keeps a list sorted. -/
theorem pairwise_orderedInsert {lt le : α → α → Prop} [DecidableRel lt]
    (hlt : ∀ a b, lt a b → le a b) (hnot : ∀ a b, ¬ lt a b → le b a)
    (htrans : ∀ a b c, le a b → le b c → le a c) {l : List α} (h : l.Pairwise le) (a : α) :
    (l.orderedInsert lt a).Pairwise le := by
  induction l with
  | nil => simp
  | cons b l ih =>
    rw [List.pairwise_cons] at h
    rw [List.orderedInsert_cons]
    split
    · next hab =>
      apply List.pairwise_cons.mpr ⟨?_, List.pairwise_cons.mpr h⟩
      intro c hc
      rcases List.mem_cons.mp hc with rfl | hc
      · exact hlt a c hab
      · exact htrans a b c (hlt a b hab) (h.1 c hc)
    · next hab =>
      apply List.pairwise_cons.mpr ⟨?_, ih h.2⟩
      intro c hc
      rcases (List.mem_orderedInsert _).mp hc with rfl | hc
      · exact hnot c b hab
      · exact h.1 c hc

variable (r : α → α → Prop) [DecidableRel r]

/-- The two lists have the same stable sort. -/
def SameSort (l l' : List α) : Prop := l.insertionSort r = l'.insertionSort r

variable {r}

theorem SameSort.refl (l : List α) : SameSort r l l := rfl

theorem SameSort.trans {l l' l'' : List α} (h : SameSort r l l') (h' : SameSort r l' l'') :
    SameSort r l l'' := Eq.trans h h'

private theorem SameSort.cons (a : α) {l l' : List α} (h : SameSort r l l') :
    SameSort r (a :: l) (a :: l') := by
  unfold SameSort at h ⊢
  rw [List.insertionSort_cons, List.insertionSort_cons, h]

theorem SameSort.append_left (l : List α) {m m' : List α} (h : SameSort r m m') :
    SameSort r (l ++ m) (l ++ m') := by
  induction l with
  | nil => exact h
  | cons a l ih => exact ih.cons a

theorem SameSort.perm {l l' : List α} (h : SameSort r l l') : l.Perm l' := by
  have hl := List.perm_insertionSort r l
  rw [h] at hl
  exact hl.symm.trans (List.perm_insertionSort r l')

theorem SameSort.eq_insertionSort {l l' : List α} (h : SameSort r l l')
    (hl : l.Pairwise r) : l = l'.insertionSort r := by
  rw [← h, hl.insertionSort_eq]

variable [IsTrans α r]

/-- Elements that are out of order may be inserted in either order. -/
theorem orderedInsert_comm {x b : α} (hbx : r b x) (hxb : ¬ r x b) (l : List α) :
    (l.orderedInsert r b).orderedInsert r x = (l.orderedInsert r x).orderedInsert r b := by
  induction l with
  | nil => simp [hbx, hxb]
  | cons c l ih =>
    by_cases hxc : r x c
    · have hbc : r b c := IsTrans.trans b x c hbx hxc
      simp [hxc, hbc, hbx, hxb]
    · by_cases hbc : r b c
      · simp [hxc, hbc, hxb]
      · simp [hxc, hbc, ih]

private theorem SameSort.swap {x b : α} (hbx : r b x) (hxb : ¬ r x b) (l : List α) :
    SameSort r (x :: b :: l) (b :: x :: l) := orderedInsert_comm hbx hxb _

/-- An element may be moved before elements that it is out of order with. -/
theorem SameSort.move {b : α} {xs : List α} (hxs : ∀ x ∈ xs, r b x ∧ ¬ r x b) (l : List α) :
    SameSort r (xs ++ b :: l) (b :: (xs ++ l)) := by
  induction xs with
  | nil => exact SameSort.refl _
  | cons x xs ih =>
    have hx := hxs x List.mem_cons_self
    have hrest := ih fun y hy => hxs y (List.mem_cons_of_mem x hy)
    exact (hrest.cons x).trans (SameSort.swap hx.1 hx.2 _)

variable [Std.Total r]

/-- Merging two sorted lists, with ties taken from the first, is a step of the stable sort. -/
theorem SameSort.merge {xs : List α} (hxs : xs.Pairwise r) (ys l : List α) :
    SameSort r (xs.merge ys (fun a b => decide (r a b)) ++ l) (xs ++ (ys ++ l)) := by
  induction xs generalizing ys with
  | nil => simpa using SameSort.refl _
  | cons x xs ih =>
    rw [List.pairwise_cons] at hxs
    induction ys with
    | nil => simpa using SameSort.refl _
    | cons y ys ihy =>
      rw [List.cons_merge_cons]
      by_cases hxy : r x y
      · rw [if_pos (by simpa using hxy)]
        exact (ih hxs.2 (y :: ys)).cons x
      · rw [if_neg (by simpa using hxy)]
        have hyx : r y x := (Std.Total.total x y).resolve_left hxy
        have hall : ∀ z ∈ x :: xs, r y z ∧ ¬ r z y := by
          intro z hz
          rcases List.mem_cons.mp hz with rfl | hz
          · exact ⟨hyx, hxy⟩
          · have hxz : r x z := hxs.1 z hz
            exact ⟨IsTrans.trans y x z hyx hxz, fun hzy => hxy (IsTrans.trans x z y hxz hzy)⟩
        have hmove := SameSort.move hall (ys ++ l)
        exact (ihy.cons y).trans hmove.symm

end Pintos.Base.StableSort

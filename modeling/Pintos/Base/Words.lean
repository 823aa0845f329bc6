import Mathlib.Algebra.Order.BigOperators.Group.List
import Mathlib.Algebra.Order.Ring.Nat

/-!
# Words between delimiters

The words of a list are its maximal runs without a delimiter, in order: the list is cut at
every delimiter and the empty pieces are dropped.
-/

namespace Pintos.Base

variable {α : Type*} {p : α → Bool} {l w xs ys : List α} {sep : α}

/-- The maximal runs of `l` in which `p` is false. -/
def words (p : α → Bool) (l : List α) : List (List α) :=
  (l.splitOnP p).filter fun w => !w.isEmpty

@[simp] theorem words_nil : words p [] = [] := by
  simp [words, List.splitOnP_nil]

/-- A delimiter separates the words before it from those after it. -/
theorem words_append_cons (h : p sep = true) :
    words p (xs ++ sep :: ys) = words p xs ++ words p ys := by
  unfold words
  rw [List.splitOnP_append_cons _ _ h, List.filter_append]

private theorem words_cons (h : p sep = true) : words p (sep :: ys) = words p ys := by
  rw [← List.nil_append (sep :: ys), words_append_cons h, words_nil, List.nil_append]

theorem words_of_forall_not (h : ∀ x ∈ w, p x = false) (hne : w ≠ []) : words p w = [w] := by
  unfold words
  rw [List.splitOnP_eq_singleton h]
  simp [hne]

theorem words_append_cons_of_forall_not (h : ∀ x ∈ w, p x = false) (hne : w ≠ [])
    (hsep : p sep = true) : words p (w ++ sep :: ys) = w :: words p ys := by
  rw [words_append_cons hsep, words_of_forall_not h hne, List.singleton_append]

theorem words_append_left (h : ∀ x ∈ xs, p x = true) : words p (xs ++ ys) = words p ys := by
  induction xs with
  | nil => rfl
  | cons x xs ih =>
    rw [List.cons_append, words_cons (h x List.mem_cons_self)]
    exact ih fun y hy => h y (List.mem_cons_of_mem _ hy)

private theorem words_of_forall (h : ∀ x ∈ xs, p x = true) : words p xs = [] := by
  rw [← List.append_nil xs, words_append_left h, words_nil]

private theorem words_append_right (h : ∀ x ∈ ys, p x = true) :
    words p (xs ++ ys) = words p xs := by
  cases ys with
  | nil => rw [List.append_nil]
  | cons y ys =>
    rw [words_append_cons (h y List.mem_cons_self),
      words_of_forall fun x hx => h x (List.mem_cons_of_mem y hx), List.append_nil]

private theorem flatten_words (l : List α) : (words p l).flatten = l.filter fun x => !p x := by
  unfold words
  rw [List.flatten_filter_not_isEmpty]
  induction l with
  | nil => rfl
  | cons x l ih =>
    rw [List.splitOnP_cons_eq_if_modifyHead, List.filter_cons]
    cases hx : p x with
    | true => simpa using ih
    | false =>
      obtain ⟨w, ws, hw⟩ := List.exists_cons_of_ne_nil (List.splitOnP_ne_nil p l)
      rw [hw] at ih ⊢
      simpa using ih

theorem words_append_eq_iff : words p (xs ++ ys) = words p xs ↔ ∀ y ∈ ys, p y = true := by
  constructor
  · intro h
    have hflat := congrArg List.flatten h
    rw [flatten_words, flatten_words, List.filter_append, List.append_right_eq_self,
      List.filter_eq_nil_iff] at hflat
    simpa using hflat
  · exact words_append_right

theorem words_eq_nil_iff : words p l = [] ↔ ∀ x ∈ l, p x = true := by
  have h := @words_append_eq_iff _ p [] l
  rwa [words_nil, List.nil_append] at h

/-- The words with one separator each fit in the list and one place more. -/
theorem sum_words_le (l : List α) :
    ((words p l).map fun w => w.length + 1).sum ≤ l.length + 1 := by
  have hall : ((l.splitOnP p).map fun w => w.length + 1).sum = l.length + 1 := by
    induction l with
    | nil => rfl
    | cons x l ih =>
      rw [List.splitOnP_cons_eq_if_modifyHead]
      cases hx : p x with
      | true => simp [ih]; omega
      | false =>
        obtain ⟨w, ws, hw⟩ := List.exists_cons_of_ne_nil (List.splitOnP_ne_nil p l)
        rw [hw] at ih ⊢
        simp at ih ⊢
        omega
  rw [← hall]
  exact ((List.filter_sublist).map _).sum_le_sum fun _ _ => Nat.zero_le _

end Pintos.Base

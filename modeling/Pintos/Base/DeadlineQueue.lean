import Mathlib.Data.List.Sort
import Mathlib.Order.Basic
import Pintos.Base.StableSort

/-!
# Queues of deadlines

A queue ordered by deadline, to which elements are added behind those of the same deadline and
from which, each time the clock advances, the elements that are due are taken off the front. Over
any history, the elements taken off at a time are exactly those added with that deadline, in the
order in which they were added.
-/

namespace Pintos.Base.DeadlineQueue

universe u

variable {α : Type u}

/-- What happens to an element. -/
inductive Event (α : Type u)
  | added (a : α) (deadline : Int)
  | expired (a : α) (time : Int)

/-- The element, if the event adds one with this deadline. -/
def Event.adds? (time : Int) : Event α → Option α
  | .added a deadline => if deadline = time then some a else none
  | .expired _ _ => none

/-- The element, if one expires at this time. -/
def Event.expires? (time : Int) : Event α → Option α
  | .added _ _ => none
  | .expired a t => if t = time then some a else none

/-- The elements added with a deadline, in order. -/
def addedFor (time : Int) (es : List (Event α)) : List α := es.filterMap (Event.adds? time)

/-- The elements that expired at a time, in order. -/
def expiredAt (time : Int) (es : List (Event α)) : List α := es.filterMap (Event.expires? time)

@[simp] theorem addedFor_append (time : Int) (es fs : List (Event α)) :
    addedFor time (es ++ fs) = addedFor time es ++ addedFor time fs := by
  simp [addedFor]

@[simp] theorem expiredAt_append (time : Int) (es fs : List (Event α)) :
    expiredAt time (es ++ fs) = expiredAt time es ++ expiredAt time fs := by
  simp [expiredAt]

@[simp] theorem addedFor_added (time deadline : Int) (a : α) :
    addedFor time [.added a deadline] = if deadline = time then [a] else [] := by
  unfold addedFor
  split
  · next h => simp [Event.adds?, h]
  · next h => simp [Event.adds?, h]

@[simp] theorem expiredAt_added (time deadline : Int) (a : α) :
    expiredAt time [.added a deadline] = [] := rfl

/-- The queue with an element added behind those of the same deadline. -/
def add (queue : List (Int × α)) (e : Int × α) : List (Int × α) :=
  queue.orderedInsert (fun x y => x.1 < y.1) e

/-- The elements of the queue with a deadline, in order. -/
def withDeadline (time : Int) (queue : List (Int × α)) : List α :=
  (queue.filter fun e => e.1 = time).map Prod.snd

/-- The queue holds what is not yet due, in order, and everything else has expired on time. -/
structure Exact (now : Int) (queue : List (Int × α)) (es : List (Event α)) : Prop where
  sorted : queue.Pairwise fun x y => x.1 ≤ y.1
  future : ∀ e ∈ queue, now < e.1
  past : ∀ time, time ≤ now → expiredAt time es = addedFor time es
  pending : ∀ time, now < time → expiredAt time es = [] ∧ withDeadline time queue = addedFor time es

theorem Exact.nil (now : Int) : Exact now ([] : List (Int × α)) [] :=
  ⟨List.Pairwise.nil, fun _ h => absurd h List.not_mem_nil, fun _ _ => rfl, fun _ _ => ⟨rfl, rfl⟩⟩

private theorem sorted_add {queue : List (Int × α)} (h : queue.Pairwise fun x y => x.1 ≤ y.1)
    (e : Int × α) : (add queue e).Pairwise fun x y => x.1 ≤ y.1 := by
  refine StableSort.pairwise_orderedInsert ?_ ?_ ?_ h e
  · exact fun _ _ hlt => le_of_lt hlt
  · exact fun _ _ hnot => not_lt.mp hnot
  · exact fun _ _ _ hab hbc => le_trans hab hbc

/-- An element is added behind those of its deadline, and moves no others. -/
theorem withDeadline_add {queue : List (Int × α)} (h : queue.Pairwise fun x y => x.1 ≤ y.1)
    (time deadline : Int) (a : α) :
    withDeadline time (add queue (deadline, a)) =
      withDeadline time queue ++ if deadline = time then [a] else [] := by
  induction queue with
  | nil =>
    by_cases hd : deadline = time
    · simp [withDeadline, add, hd]
    · simp [withDeadline, add, hd]
  | cons x queue ih =>
    rw [List.pairwise_cons] at h
    have hrest := ih h.2
    unfold add withDeadline at hrest ⊢
    rw [List.orderedInsert]
    split
    · next hlt =>
      by_cases hd : deadline = time
      · -- everything behind is later, so nothing with this deadline follows
        subst hd
        have hnone : (x :: queue).filter (fun e => e.1 = deadline) = [] := by
          rw [List.filter_eq_nil_iff]
          intro y hy
          simp only [decide_eq_true_eq]
          rcases List.mem_cons.mp hy with rfl | hy
          · exact ne_of_gt hlt
          · exact ne_of_gt (lt_of_lt_of_le hlt (h.1 y hy))
        rw [List.filter_cons_of_pos (by simp), hnone]
        simp
      · rw [List.filter_cons_of_neg (by simpa using hd), if_neg hd, List.append_nil]
    · by_cases hx : x.1 = time
      · rw [List.filter_cons_of_pos (by simpa using hx), List.map_cons, hrest,
          List.filter_cons_of_pos (by simpa using hx), List.map_cons, List.cons_append]
      · rw [List.filter_cons_of_neg (by simpa using hx), hrest,
          List.filter_cons_of_neg (by simpa using hx)]

theorem Exact.add {now : Int} {queue : List (Int × α)} {es : List (Event α)}
    (h : Exact now queue es) {deadline : Int} (hd : now < deadline) (a : α) :
    Exact now (add queue (deadline, a)) (es ++ [.added a deadline]) where
  sorted := sorted_add h.sorted _
  future e he := by
    rcases (List.mem_orderedInsert _).mp he with rfl | he
    · exact hd
    · exact h.future e he
  past time ht := by
    have hne : deadline ≠ time := ne_of_gt (lt_of_le_of_lt ht hd)
    simp [h.past time ht, hne]
  pending time ht := by
    obtain ⟨hexp, hadd⟩ := h.pending time ht
    constructor
    · rw [expiredAt_append, hexp]
      rfl
    · rw [withDeadline_add h.sorted, hadd, addedFor_append, addedFor_added]

/-- The elements that are due at a time. -/
def due (time : Int) (queue : List (Int × α)) : List (Int × α) := queue.takeWhile fun e => e.1 ≤ time

/-- The elements that are not yet due. -/
def rest (time : Int) (queue : List (Int × α)) : List (Int × α) :=
  queue.dropWhile fun e => e.1 ≤ time

/-- In a sorted queue, what is not yet due is what the loop leaves. -/
theorem lt_of_mem_rest {time : Int} {queue : List (Int × α)}
    (h : queue.Pairwise fun x y => x.1 ≤ y.1) {e : Int × α} (he : e ∈ rest time queue) :
    time < e.1 := by
  induction queue with
  | nil => cases he
  | cons x queue ih =>
    rw [List.pairwise_cons] at h
    unfold rest at he ih
    rw [List.dropWhile_cons] at he
    split at he
    · exact ih h.2 he
    · next hx =>
      simp only [decide_eq_true_eq, not_le] at hx
      rcases List.mem_cons.mp he with rfl | he
      · exact hx
      · exact lt_of_lt_of_le hx (h.1 e he)

theorem due_append_rest (time : Int) (queue : List (Int × α)) :
    due time queue ++ rest time queue = queue := List.takeWhile_append_dropWhile

theorem le_of_mem_due {time : Int} {queue : List (Int × α)} {e : Int × α}
    (he : e ∈ due time queue) : e.1 ≤ time := by
  have hall := List.all_takeWhile (p := fun e : Int × α => decide (e.1 ≤ time)) (l := queue)
  simpa using List.all_eq_true.mp hall e he

/-- The events of a clock tick. -/
def expiries (time : Int) (queue : List (Int × α)) : List (Event α) :=
  (due time queue).map fun e => .expired e.2 time

theorem expiredAt_expiries (time t : Int) (queue : List (Int × α)) :
    expiredAt t (expiries time queue) =
      if time = t then (due time queue).map Prod.snd else [] := by
  unfold expiries expiredAt
  rw [List.filterMap_map]
  split
  · next heq => simp [Event.expires?, heq]
  · next hne => simp [Function.comp_def, Event.expires?, hne]

private theorem addedFor_expiries (time t : Int) (queue : List (Int × α)) :
    addedFor t (expiries time queue) = [] := by
  unfold expiries addedFor
  rw [List.filterMap_map]
  simp [Function.comp_def, Event.adds?]

theorem Exact.advance {now : Int} {queue : List (Int × α)} {es : List (Event α)}
    (h : Exact now queue es) :
    Exact (now + 1) (rest (now + 1) queue) (es ++ expiries (now + 1) queue) := by
  have hsub : ∀ e ∈ queue, now < e.1 := h.future
  have hdue : ∀ e ∈ due (now + 1) queue, e.1 = now + 1 := by
    intro e he
    have hlow := h.future e ((List.takeWhile_sublist _).subset he)
    have hhigh := le_of_mem_due he
    omega
  have hrest : ∀ e ∈ rest (now + 1) queue, now + 1 < e.1 := fun e he => lt_of_mem_rest h.sorted he
  have hsplit : ∀ time, withDeadline time queue =
      withDeadline time (due (now + 1) queue) ++ withDeadline time (rest (now + 1) queue) := by
    intro time
    rw [withDeadline, withDeadline, withDeadline, ← List.map_append, ← List.filter_append,
      due_append_rest]
  refine ⟨h.sorted.sublist (List.dropWhile_sublist _), hrest, ?_, ?_⟩
  · intro time ht
    rw [expiredAt_append, addedFor_append, expiredAt_expiries, addedFor_expiries, List.append_nil]
    by_cases hnow : now + 1 = time
    · subst hnow
      obtain ⟨hexp, hadd⟩ := h.pending (now + 1) (by omega)
      have hall : withDeadline (now + 1) (due (now + 1) queue) =
          (due (now + 1) queue).map Prod.snd := by
        rw [withDeadline, List.filter_eq_self.mpr]
        intro e he
        simpa using hdue e he
      have hnone : withDeadline (now + 1) (rest (now + 1) queue) = [] := by
        rw [withDeadline, List.filter_eq_nil_iff.mpr, List.map_nil]
        intro e he
        have hlt := hrest e he
        simp only [decide_eq_true_eq]
        omega
      rw [if_pos rfl, hexp, List.nil_append, ← hadd, hsplit, hall, hnone, List.append_nil]
    · rw [if_neg hnow, List.append_nil]
      exact h.past time (by omega)
  · intro time ht
    obtain ⟨hexp, hadd⟩ := h.pending time (by omega)
    have hnone : withDeadline time (due (now + 1) queue) = [] := by
      rw [withDeadline, List.filter_eq_nil_iff.mpr, List.map_nil]
      intro e he
      have heq := hdue e he
      simp only [decide_eq_true_eq]
      omega
    rw [expiredAt_append, addedFor_append, expiredAt_expiries, addedFor_expiries,
      if_neg (by omega), hexp, List.append_nil, List.append_nil, ← hadd, hsplit, hnone]
    exact ⟨rfl, rfl⟩

end Pintos.Base.DeadlineQueue

import Mathlib.Data.List.Chain
import Mathlib.Order.Defs.Unbundled
import Pintos.Base.StableSort

/-!
# Sorting lists

`list_sort`, a natural merge sort that passes over the list until one run is left, and
`list_insert_ordered`. The passes end, and leave the stable sort of the list.
Source `lib/kernel/list.c:357–459`.
-/

namespace Pintos.Lib

open Base.StableSort

universe u

variable {α : Type u} (less : α → α → Bool)

/-- `find_end_of_run`, `lib/kernel/list.c:357–373`: the run that begins with `a`, and what
follows it. -/
def findEndOfRun (a : α) : List α → List α × List α
  | [] => ([a], [])
  | b :: l =>
    if less b a then ([a], b :: l)
    else (a :: (findEndOfRun b l).1, (findEndOfRun b l).2)

/-- The elements of the second run that are less than `a`, the first of the first run, are spliced
in before it; `next` merges from the next element on. -/
def spliceBefore (a : α) (xs : List α) (next : List α → List α) : List α → List α
  | [] => a :: xs
  | b :: ys => if less b a then b :: spliceBefore a xs next ys else a :: next (b :: ys)

/-- `inplace_merge`, `lib/kernel/list.c:380–402`, of two runs. -/
def inplaceMerge : List α → List α → List α
  | [], ys => ys
  | a :: xs, ys => spliceBefore less a xs (inplaceMerge xs) ys

theorem inplaceMerge_cons_cons (a b : α) (xs ys : List α) :
    inplaceMerge less (a :: xs) (b :: ys) =
      if less b a then b :: inplaceMerge less (a :: xs) ys
      else a :: inplaceMerge less xs (b :: ys) := rfl

private theorem length_findEndOfRun (a : α) (l : List α) :
    (findEndOfRun less a l).2.length ≤ l.length := by
  induction l generalizing a with
  | nil => exact Nat.le_refl 0
  | cons b l ih =>
    rw [findEndOfRun]
    split
    · exact Nat.le_refl _
    · exact Nat.le_succ_of_le (ih b)

/-- One pass over the list, `lib/kernel/list.c:419–436`, and the number of runs it leaves. Each
iteration removes an element at least, so that there is fuel enough if it is the length. -/
def sortPass : Nat → List α → List α × Nat
  | _, [] => ([], 0)
  | 0, l => (l, 0)
  | fuel + 1, a :: l =>
    match findEndOfRun less a l with
    | (run, []) => (run, 1)
    | (run, b :: rest) =>
      let second := findEndOfRun less b rest
      let out := sortPass fuel second.2
      (inplaceMerge less run second.1 ++ out.1, out.2 + 1)

theorem sortPass_last {fuel : Nat} {a : α} {l run : List α}
    (h : findEndOfRun less a l = (run, [])) : sortPass less (fuel + 1) (a :: l) = (run, 1) := by
  rw [sortPass, h]

theorem sortPass_more {fuel : Nat} {a b : α} {l run rest : List α}
    (h : findEndOfRun less a l = (run, b :: rest)) :
    sortPass less (fuel + 1) (a :: l) =
      (inplaceMerge less run (findEndOfRun less b rest).1 ++
        (sortPass less fuel (findEndOfRun less b rest).2).1,
        (sortPass less fuel (findEndOfRun less b rest).2).2 + 1) := by
  rw [sortPass, h]

/-- The passes of `list_sort`, as many of them as there is fuel for. -/
def sortPasses (l : List α) : Nat → List α
  | 0 => l
  | fuel + 1 =>
    let pass := sortPass less l.length l
    if 1 < pass.2 then sortPasses pass.1 fuel else pass.1

/-- `list_sort`, `lib/kernel/list.c:407–440`. -/
def listSort (l : List α) : List α := sortPasses less l (l.length + 1)

/-- `list_insert_ordered`, `lib/kernel/list.c:445–459`. -/
def listInsertOrdered (elem : α) : List α → List α
  | [] => [elem]
  | e :: l => if less elem e then elem :: e :: l else e :: listInsertOrdered elem l

theorem listInsertOrdered_eq (elem : α) (l : List α) :
    listInsertOrdered less elem l = l.orderedInsert (fun a b => less a b) elem := by
  induction l with
  | nil => rfl
  | cons e l ih => rw [listInsertOrdered, List.orderedInsert_cons, ih]

/-- The number of elements that are less than the one before them. -/
def descents : List α → Nat
  | a :: b :: l => (if less b a then 1 else 0) + descents (b :: l)
  | _ => 0

/-- The order that `list_sort` establishes. -/
def InOrder (a b : α) : Prop := less b a = false

instance : DecidableRel (InOrder less) := fun _ _ => instDecidableEqBool _ _

private theorem inplaceMerge_eq (xs ys : List α) :
    inplaceMerge less xs ys = xs.merge ys fun a b => decide (InOrder less a b) := by
  induction xs generalizing ys with
  | nil => simp [inplaceMerge]
  | cons a xs ih =>
    rw [inplaceMerge]
    induction ys with
    | nil => simp [spliceBefore]
    | cons b ys ihy =>
      rw [spliceBefore, List.cons_merge_cons, ihy, ih]
      cases h : less b a <;> simp [InOrder, h]

theorem mem_inplaceMerge {x : α} {xs ys : List α} :
    x ∈ inplaceMerge less xs ys ↔ x ∈ xs ∨ x ∈ ys := by
  rw [inplaceMerge_eq, List.mem_merge]

theorem findEndOfRun_append (a : α) (l : List α) :
    (findEndOfRun less a l).1 ++ (findEndOfRun less a l).2 = a :: l := by
  induction l generalizing a with
  | nil => rfl
  | cons b l ih =>
    rw [findEndOfRun]
    split
    · rfl
    · rw [List.cons_append, ih b]

private theorem descents_findEndOfRun (a : α) (l : List α) :
    descents less (a :: l) = match (findEndOfRun less a l).2 with
      | [] => 0
      | b :: rest => descents less (b :: rest) + 1 := by
  induction l generalizing a with
  | nil => rfl
  | cons b l ih =>
    rw [findEndOfRun, descents]
    by_cases hless : less b a
    · simp [hless, Nat.add_comm]
    · simpa [hless] using ih b

theorem descents_le_length (l : List α) : descents less l ≤ l.length := by
  induction l with
  | nil => exact Nat.le_refl 0
  | cons a l ih =>
    cases l with
    | nil => exact Nat.zero_le _
    | cons b l =>
      rw [descents, List.length_cons]
      split <;> omega

private theorem descents_eq_zero_iff (l : List α) :
    descents less l = 0 ↔ l.IsChain (InOrder less) := by
  induction l with
  | nil => simp [descents]
  | cons a l ih =>
    cases l with
    | nil => simp [descents]
    | cons b l =>
      rw [descents, List.isChain_cons_cons, ← ih, InOrder]
      cases less b a <;> simp

private theorem descents_append_le (xs l : List α) :
    descents less (xs ++ l) ≤ descents less xs + descents less l + 1 := by
  induction xs with
  | nil =>
    rw [List.nil_append]
    omega
  | cons x xs ih =>
    cases xs with
    | nil =>
      cases l with
      | nil => simp [descents]
      | cons b l =>
        simp only [List.cons_append, List.nil_append, descents]
        split <;> omega
    | cons y xs =>
      simp only [List.cons_append, descents] at ih ⊢
      omega

theorem isChain_findEndOfRun (a : α) (l : List α) :
    (findEndOfRun less a l).1.IsChain (InOrder less) ∧
      (findEndOfRun less a l).1.head? = some a := by
  induction l generalizing a with
  | nil => simp [findEndOfRun]
  | cons b l ih =>
    rw [findEndOfRun]
    split
    · simp
    · next hless =>
      refine ⟨List.isChain_cons.mpr ⟨?_, (ih b).1⟩, rfl⟩
      intro c hc
      rw [(ih b).2, Option.mem_def, Option.some.injEq] at hc
      rw [← hc, InOrder, Bool.eq_false_iff]
      exact hless

variable {less}

section StrictWeakOrder

variable [IsStrictWeakOrder α fun a b => less a b = true]

theorem inOrder_total : Std.Total (InOrder less) := by
  constructor
  intro a b
  unfold InOrder
  cases hab : less a b with
  | false => exact .inr rfl
  | true =>
    cases hba : less b a with
    | false => exact .inl rfl
    | true =>
      exact absurd (trans_of (fun a b => less a b = true) hab hba)
        (irrefl_of (fun a b => less a b = true) a)

theorem inOrder_trans : IsTrans α (InOrder less) := by
  constructor
  intro a b c hab hbc
  unfold InOrder at *
  rw [← Bool.not_eq_true] at *
  intro hca
  have hab' : ¬ less a b = true := fun h => hbc (trans_of (fun a b => less a b = true) hca h)
  have hbc' : ¬ less b c = true := fun h => hab (trans_of (fun a b => less a b = true) h hca)
  have hincomp := @IsStrictWeakOrder.incomp_trans _ (fun a b => less a b = true) _ a b c
    ⟨hab', hab⟩ ⟨hbc', hbc⟩
  exact hincomp.2 hca

/-- The stable sort keeps the order of the elements that are equivalent to any one of them. -/
theorem filter_insertionSort (l : List α) (a : α) :
    (l.insertionSort (InOrder less)).filter (fun b => !less a b && !less b a) =
      l.filter fun b => !less a b && !less b a := by
  have htotal := @inOrder_total α less _
  have htrans := @inOrder_trans α less _
  have hpairwise : (l.filter fun b => !less a b && !less b a).Pairwise (InOrder less) := by
    apply List.pairwise_of_forall_mem_list
    intro b hb c hc
    rw [List.mem_filter, Bool.and_eq_true, Bool.not_eq_true', Bool.not_eq_true'] at hb hc
    exact htrans.trans b a c hb.2.1 hc.2.2
  have hsub := (List.sublist_insertionSort hpairwise List.filter_sublist).filter
    (fun b => !less a b && !less b a)
  rw [List.filter_filter] at hsub
  simp only [Bool.and_self] at hsub
  have hlength := ((List.perm_insertionSort (InOrder less) l).filter
    (fun b => !less a b && !less b a)).length_eq
  exact (hsub.eq_of_length hlength.symm).symm

end StrictWeakOrder

section Order

variable [IsTrans α (InOrder less)]

private theorem pairwise_findEndOfRun (a : α) (l : List α) :
    (findEndOfRun less a l).1.Pairwise (InOrder less) :=
  (isChain_findEndOfRun less a l).1.pairwise

variable [Std.Total (InOrder less)]

private theorem descents_inplaceMerge {xs ys : List α} (hxs : xs.Pairwise (InOrder less))
    (hys : ys.Pairwise (InOrder less)) : descents less (inplaceMerge less xs ys) = 0 := by
  rw [descents_eq_zero_iff, List.isChain_iff_pairwise, inplaceMerge_eq]
  exact hxs.merge hys

theorem sameSort_sortPass (fuel : Nat) (l : List α) :
    SameSort (InOrder less) (sortPass less fuel l).1 l := by
  fun_induction sortPass less fuel l with
  | case1 => exact SameSort.refl _
  | case2 => exact SameSort.refl _
  | case3 fuel a l run h =>
    have happ := findEndOfRun_append less a l
    rw [h, List.append_nil] at happ
    rw [← happ]
    exact SameSort.refl _
  | case4 fuel a l run b rest h second out ih =>
    have hfirst := findEndOfRun_append less a l
    have hrun := @pairwise_findEndOfRun _ less _ a l
    rw [h] at hfirst hrun
    rw [← findEndOfRun_append less b rest] at hfirst
    rw [← hfirst, inplaceMerge_eq]
    have hmerge := SameSort.merge hrun second.1 out.1
    exact hmerge.trans ((ih.append_left second.1).append_left run)

/-- A pass leaves as many runs as it counts, about half of those it finds. -/
theorem sortPass_spec (fuel : Nat) (l : List α) (hl : l ≠ []) (hfuel : l.length ≤ fuel) :
    descents less (sortPass less fuel l).1 + 1 ≤ (sortPass less fuel l).2 ∧
      2 * (sortPass less fuel l).2 ≤ descents less l + 2 := by
  fun_induction sortPass less fuel l with
  | case1 => exact absurd rfl hl
  | case2 l => exact absurd (List.eq_nil_of_length_eq_zero (Nat.le_zero.mp hfuel)) hl
  | case3 fuel a l run h =>
    have hdesc := descents_findEndOfRun less a l
    have hrun := (isChain_findEndOfRun less a l).1
    rw [h] at hdesc hrun
    rw [← descents_eq_zero_iff] at hrun
    rw [hdesc, hrun]
    exact ⟨Nat.le_refl 1, Nat.le_refl 2⟩
  | case4 fuel a l run b rest h second out ih =>
    have hdesc := descents_findEndOfRun less a l
    have hrun := @pairwise_findEndOfRun _ less _ a l
    have hsecond := @pairwise_findEndOfRun _ less _ b rest
    have hdesc' := descents_findEndOfRun less b rest
    have happ := descents_append_le less (inplaceMerge less run second.1) out.1
    have hlength := length_findEndOfRun less a l
    have hlength' : second.2.length ≤ rest.length := length_findEndOfRun less b rest
    rw [h] at hdesc hrun hlength
    rw [List.length_cons] at hlength hfuel
    rw [descents_inplaceMerge hrun hsecond] at happ
    simp only at hdesc
    cases hrest : second.2 with
    | nil =>
      have hout : out = ([], 0) := by
        rw [show out = sortPass less fuel second.2 from rfl, hrest, sortPass]
      rw [hout, List.append_nil, descents_inplaceMerge hrun hsecond]
      exact ⟨Nat.le_refl 1, Nat.le_add_left 2 _⟩
    | cons c rest' =>
      have hih := ih (by rw [hrest]; exact List.cons_ne_nil c rest') (by omega)
      have hdesc'' : descents less (b :: rest) = descents less second.2 + 1 := by
        rw [show (findEndOfRun less b rest).2 = c :: rest' from hrest] at hdesc'
        rw [hdesc', hrest]
      have hout : sortPass less fuel second.2 = out := rfl
      rw [hout] at hih
      dsimp only
      omega

/-- If a pass leaves several runs, there are fewer descents than before. -/
theorem descents_sortPass_lt {l : List α} (h : 1 < (sortPass less l.length l).2) :
    descents less (sortPass less l.length l).1 < descents less l := by
  cases l with
  | nil => exact absurd h (by simp [sortPass])
  | cons a l =>
    have hspec := @sortPass_spec _ less _ _ (a :: l).length (a :: l) (List.cons_ne_nil a l)
      (Nat.le_refl _)
    omega

theorem sortPass_eq_insertionSort {l : List α} (h : ¬ 1 < (sortPass less l.length l).2) :
    (sortPass less l.length l).1 = l.insertionSort (InOrder less) := by
  have hsame := @sameSort_sortPass _ less _ _ l.length l
  cases l with
  | nil => simp [sortPass]
  | cons a l =>
    have hspec := @sortPass_spec _ less _ _ (a :: l).length (a :: l) (List.cons_ne_nil a l)
      (Nat.le_refl _)
    have hsorted : descents less (sortPass less (a :: l).length (a :: l)).1 = 0 := by omega
    rw [descents_eq_zero_iff, List.isChain_iff_pairwise] at hsorted
    exact hsame.eq_insertionSort hsorted

/-- The passes end with one run when there is more fuel than there are descents. -/
theorem sortPasses_eq (l : List α) (fuel : Nat) (hfuel : descents less l < fuel) :
    sortPasses less l fuel = l.insertionSort (InOrder less) := by
  induction fuel generalizing l with
  | zero => exact absurd hfuel (Nat.not_lt_zero _)
  | succ fuel ih =>
    rw [sortPasses]
    split
    · next hmany =>
      have hlt := descents_sortPass_lt hmany
      rw [ih _ (by omega)]
      exact sameSort_sortPass l.length l
    · next hone => exact sortPass_eq_insertionSort hone

theorem listSort_eq (l : List α) : listSort less l = l.insertionSort (InOrder less) :=
  sortPasses_eq l _ (Nat.lt_succ_of_le (descents_le_length less l))

end Order

end Pintos.Lib

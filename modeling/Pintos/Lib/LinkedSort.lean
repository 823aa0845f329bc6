import Mathlib.Order.Defs.Unbundled
import Pintos.Lib.LinkedList
import Pintos.Lib.List

/-!
# Sorting linked lists in place

`list_sort` on the links of the elements: runs are found by walking, and merged by splicing single
elements. On the sequence of elements it does what the merge sort of `Pintos.Lib.List` does.
Every loop is given a bound on its rounds; none is the answer of a loop that exceeds it.
Source `lib/kernel/list.c:339–440`.
-/

namespace Pintos.Lib

open Base

namespace LinkedList

variable {P : Type} [DecidableEq P] (less : P → P → Bool)

/-- The loop of `is_sorted`, `lib/kernel/list.c:345–348`. -/
def isSortedLoop (h : Links P) (b : P) : Nat → P → Option Bool
  | 0, _ => none
  | fuel + 1, a => do
    let a ← listNext h a
    if a = b then
      return true
    let prev ← listPrev h a
    if less a prev then return false else isSortedLoop h b fuel a

/-- `is_sorted`, `lib/kernel/list.c:341–350`. -/
def isSorted (rounds : Nat) (h : Links P) (a b : P) : Option Bool :=
  if a ≠ b then isSortedLoop less h b rounds a else some true

/-- The loop of `find_end_of_run`, `lib/kernel/list.c:366–370`. -/
def findEndLoop (h : Links P) (b : P) : Nat → P → Option P
  | 0, _ => none
  | fuel + 1, a => do
    let a ← listNext h a
    if a = b then
      return a
    let prev ← listPrev h a
    if less a prev then return a else findEndLoop h b fuel a

/-- `find_end_of_run`, `lib/kernel/list.c:357–372`. -/
def findEndOfRun (rounds : Nat) (h : Links P) (a b : P) : Option P := do
  guard (a ≠ b)
  findEndLoop less h b rounds a

/-- The loop of `inplace_merge`, `lib/kernel/list.c:391–398`. -/
def mergeLoop (b1 : P) : Nat → Links P → P → P → Option (Links P)
  | 0, _, _, _ => none
  | fuel + 1, h, a0, a1b0 =>
    if a0 ≠ a1b0 ∧ a1b0 ≠ b1 then
      if !less a1b0 a0 then do
        let a0 ← listNext h a0
        mergeLoop b1 fuel h a0 a1b0
      else do
        let a1b0 ← listNext h a1b0
        let prev ← listPrev h a1b0
        let h ← listSplice h a0 prev a1b0
        mergeLoop b1 fuel h a0 a1b0
    else some h

/-- `inplace_merge`, `lib/kernel/list.c:379–399`. -/
def inplaceMerge (rounds : Nat) (h : Links P) (a0 a1b0 b1 : P) : Option (Links P) := do
  let first ← isSorted less rounds h a0 a1b0
  guard first
  let second ← isSorted less rounds h a1b0 b1
  guard second
  mergeLoop less b1 rounds h a0 a1b0

/-- The loop of a pass, `lib/kernel/list.c:421–435`: the links and `output_run_cnt` after it. -/
def passLoop (rounds : Nat) (list : LinkedList P) :
    Nat → Links P → P → Nat → Option (Links P × Nat)
  | 0, _, _, _ => none
  | fuel + 1, h, a0, outputRunCnt =>
    if a0 = listEnd list then some (h, outputRunCnt)
    else do
      let outputRunCnt := outputRunCnt + 1
      let a1b0 ← findEndOfRun less rounds h a0 (listEnd list)
      if a1b0 = listEnd list then
        return (h, outputRunCnt)
      let b1 ← findEndOfRun less rounds h a1b0 (listEnd list)
      let h ← inplaceMerge less rounds h a0 a1b0 b1
      passLoop rounds list fuel h b1 outputRunCnt

/-- The passes, `lib/kernel/list.c:414–437`. -/
def passesLoop (rounds : Nat) (list : LinkedList P) : Nat → Links P → Option (Links P)
  | 0, _ => none
  | fuel + 1, h => do
    let a0 ← listBegin h list
    let (h, outputRunCnt) ← passLoop less rounds list rounds h a0 0
    if outputRunCnt > 1 then passesLoop rounds list fuel h else return h

/-- `list_sort`, `lib/kernel/list.c:404–440`. -/
def listSort (rounds : Nat) (h : Links P) (list : LinkedList P) : Option (Links P) := do
  let h ← passesLoop less rounds list rounds h
  let begin ← listBegin h list
  let sorted ← isSorted less rounds h begin (listEnd list)
  guard sorted
  return h

variable {less} {h : Links P} {list : LinkedList P} {pre suf : List P}

private theorem Holds.findEndLoop_eq {a : P} {l : List P} (hl : list.Holds h (pre ++ a :: l))
    {fuel : Nat} (hfuel : l.length < fuel) :
    findEndLoop less h list.tail fuel a = some ((Lib.findEndOfRun less a l).2.headD list.tail) := by
  induction l generalizing a pre fuel with
  | nil =>
    cases fuel with
    | zero => exact absurd hfuel (Nat.not_lt_zero _)
    | succ fuel =>
      rw [findEndLoop, hl.listNext_eq]
      simp [Lib.findEndOfRun]
  | cons b l ih =>
    cases fuel with
    | zero => exact absurd hfuel (Nat.not_lt_zero _)
    | succ fuel =>
      have hl' : list.Holds h ((pre ++ [a]) ++ b :: l) := by
        rw [List.append_assoc]
        exact hl
      have hprev : listPrev h b = some a := hl.listPrev_eq
      have hne := hl'.ne_tail
      have hrec := ih hl' (Nat.lt_of_succ_lt_succ hfuel)
      rw [findEndLoop, hl.listNext_eq, Lib.findEndOfRun]
      simp only [List.headD_cons, Option.bind_eq_bind, Option.bind_some, if_neg hne, hprev]
      split
      · rfl
      · exact hrec

private theorem Holds.isSortedLoop_eq {a : P} {l : List P}
    (hl : list.Holds h (pre ++ a :: l ++ suf))
    (hsorted : (a :: l).IsChain (InOrder less)) {fuel : Nat} (hfuel : l.length < fuel) :
    isSortedLoop less h (suf.headD list.tail) fuel a = some true := by
  induction l generalizing a pre fuel with
  | nil =>
    cases fuel with
    | zero => exact absurd hfuel (Nat.not_lt_zero _)
    | succ fuel =>
      rw [List.append_assoc] at hl
      rw [isSortedLoop, hl.listNext_eq]
      simp
  | cons b l ih =>
    cases fuel with
    | zero => exact absurd hfuel (Nat.not_lt_zero _)
    | succ fuel =>
      obtain ⟨hab, hrest⟩ := List.isChain_cons_cons.mp hsorted
      have hl' : list.Holds h ((pre ++ [a]) ++ b :: l ++ suf) := by
        rw [List.append_assoc pre]
        exact hl
      have hrec := ih hl' hrest (Nat.lt_of_succ_lt_succ hfuel)
      have hne := hl'.ne_headD
      rw [List.append_assoc] at hl
      have hnext : listNext h a = some b := hl.listNext_eq
      have hprev : listPrev h b = some a := hl.listPrev_eq
      rw [isSortedLoop, hnext]
      simp only [Option.bind_eq_bind, Option.bind_some, if_neg hne, hprev]
      rw [show less b a = false from hab]
      exact hrec

private theorem Holds.isSorted_eq {l : List P} (hl : list.Holds h (pre ++ l ++ suf))
    (hsorted : l.IsChain (InOrder less)) {rounds : Nat} (hrounds : l.length ≤ rounds) :
    isSorted less rounds h ((l ++ suf).headD list.tail) (suf.headD list.tail) = some true := by
  cases l with
  | nil => exact if_neg (fun h => h rfl)
  | cons a l =>
    rw [isSorted, List.cons_append, List.headD_cons, if_pos hl.ne_headD]
    exact hl.isSortedLoop_eq hsorted hrounds

private theorem mergeLoop_keep {a0 a1b0 b1 : P} {fuel : Nat} (hne : a0 ≠ a1b0) (hne' : a1b0 ≠ b1)
    (hless : less a1b0 a0 = false) :
    mergeLoop less b1 (fuel + 1) h a0 a1b0 =
      (listNext h a0).bind fun a0 => mergeLoop less b1 fuel h a0 a1b0 := by
  rw [mergeLoop, if_pos ⟨hne, hne'⟩, hless]
  rfl

private theorem mergeLoop_move {a0 a1b0 b1 : P} {fuel : Nat} (hne : a0 ≠ a1b0) (hne' : a1b0 ≠ b1)
    (hless : less a1b0 a0 = true) :
    mergeLoop less b1 (fuel + 1) h a0 a1b0 =
      (listNext h a1b0).bind fun a1b0 => (listPrev h a1b0).bind fun prev =>
        (listSplice h a0 prev a1b0).bind fun h => mergeLoop less b1 fuel h a0 a1b0 := by
  rw [mergeLoop, if_pos ⟨hne, hne'⟩, hless]
  rfl

private theorem Holds.mergeLoop_spec {xs ys : List P}
    (hl : list.Holds h (pre ++ (xs ++ (ys ++ suf))))
    {fuel : Nat} (hfuel : xs.length + ys.length < fuel) :
    ∃ h', mergeLoop less (suf.headD list.tail) fuel h ((xs ++ (ys ++ suf)).headD list.tail)
        ((ys ++ suf).headD list.tail) = some h' ∧
      list.Holds h' (pre ++ (Lib.inplaceMerge less xs ys ++ suf)) ∧
      Links.SameOutside (list.nodes (pre ++ (xs ++ (ys ++ suf)))) h h' := by
  induction fuel generalizing h pre xs ys with
  | zero => exact absurd hfuel (Nat.not_lt_zero _)
  | succ fuel ih =>
    cases xs with
    | nil => exact ⟨h, if_neg (fun hc => hc.1 rfl), hl, Links.SameOutside.refl _ h⟩
    | cons x xs =>
      cases ys with
      | nil =>
        refine ⟨h, if_neg (fun hc => hc.2 rfl), ?_, Links.SameOutside.refl _ h⟩
        exact hl
      | cons y ys =>
        have hx : x ≠ (y :: ys ++ suf).headD list.tail := by
          apply Holds.ne_headD (l := xs)
          rwa [List.append_assoc]
        have hyl : list.Holds h ((pre ++ x :: xs) ++ y :: (ys ++ suf)) := by
          rw [List.append_assoc]
          exact hl
        have hy : y ≠ suf.headD list.tail := by
          apply Holds.ne_headD (l := ys)
          rw [List.append_assoc]
          exact hyl
        have hlength : xs.length + 1 + (ys.length + 1) < fuel + 1 := hfuel
        rw [inplaceMerge_cons_cons]
        cases hless : less y x with
        | false =>
          -- `x` stays where it is
          have hl' : list.Holds h ((pre ++ [x]) ++ (xs ++ (y :: ys ++ suf))) := by
            rw [List.append_assoc]
            exact hl
          have hnext : listNext h x = some ((xs ++ (y :: ys ++ suf)).headD list.tail) :=
            hl.listNext_eq
          obtain ⟨h', hloop, hh', hout⟩ := ih hl' (by rw [List.length_cons]; omega)
          rw [List.append_assoc] at hh' hout
          refine ⟨h', ?_, hh', hout⟩
          exact (mergeLoop_keep hx hy hless).trans (by rw [hnext]; exact hloop)
        | true =>
          -- `y` is moved before `x`
          obtain ⟨h1, hsplice, hl1, hout1⟩ := @Holds.listSplice_one _ _ _ pre (ys ++ suf) _ _ _ _ hl
          have hl1' : list.Holds h1 ((pre ++ [y]) ++ (x :: xs ++ (ys ++ suf))) := by
            rw [List.append_assoc]
            exact hl1
          obtain ⟨h', hloop, hh', hout⟩ := ih hl1' (by rw [List.length_cons]; omega)
          rw [List.append_assoc] at hh' hout
          refine ⟨h', ?_, hh', hout1.trans (hout.mono ?_)⟩
          · have hsteps : (listNext h y).bind (fun a1b0 => (listPrev h a1b0).bind fun prev =>
                (listSplice h x prev a1b0).bind fun h =>
                  mergeLoop less (suf.headD list.tail) fuel h x a1b0) = some h' := by
              rw [hyl.listNext_eq, Option.bind_some, hyl.listPrev_eq, Option.bind_some, hsplice]
              exact hloop
            exact (mergeLoop_move hx hy hless).trans hsteps
          · intro p hp
            simp only [nodes, List.mem_cons, List.mem_append, List.not_mem_nil, or_false] at hp ⊢
            tauto

private theorem Holds.inplaceMerge_spec {xs ys : List P}
    (hl : list.Holds h (pre ++ (xs ++ (ys ++ suf))))
    (hxs : xs.IsChain (InOrder less)) (hys : ys.IsChain (InOrder less)) {rounds : Nat}
    (hrounds : xs.length + ys.length < rounds) :
    ∃ h', inplaceMerge less rounds h ((xs ++ (ys ++ suf)).headD list.tail)
        ((ys ++ suf).headD list.tail) (suf.headD list.tail) = some h' ∧
      list.Holds h' (pre ++ (Lib.inplaceMerge less xs ys ++ suf)) ∧
      Links.SameOutside (list.nodes (pre ++ (xs ++ (ys ++ suf)))) h h' := by
  have hfirst : list.Holds h (pre ++ xs ++ (ys ++ suf)) := by
    rwa [List.append_assoc]
  have hsecond : list.Holds h (pre ++ xs ++ ys ++ suf) := by
    rwa [List.append_assoc]
  rw [inplaceMerge, hfirst.isSorted_eq hxs (by omega), hsecond.isSorted_eq hys (by omega)]
  exact hl.mergeLoop_spec hrounds

private theorem Holds.findEndOfRun_eq {a : P} {l : List P} (hl : list.Holds h (pre ++ a :: l))
    {rounds : Nat} (hrounds : l.length < rounds) :
    findEndOfRun less rounds h a list.tail =
      some ((Lib.findEndOfRun less a l).2.headD list.tail) := by
  have hne := hl.ne_tail
  rw [findEndOfRun, guard, if_pos (by simpa using hne)]
  exact hl.findEndLoop_eq hrounds

private theorem passLoop_last {rounds fuel cnt : Nat} {a0 : P} (hne : a0 ≠ list.tail)
    (hend : findEndOfRun less rounds h a0 list.tail = some list.tail) :
    passLoop less rounds list (fuel + 1) h a0 cnt = some (h, cnt + 1) := by
  rw [passLoop, listEnd, if_neg hne, hend]
  exact if_pos rfl

private theorem passLoop_more {rounds fuel cnt : Nat} {a0 a1b0 b1 : P} {h' : Links P}
    (hne : a0 ≠ list.tail)
    (hend : findEndOfRun less rounds h a0 list.tail = some a1b0) (hne' : a1b0 ≠ list.tail)
    (hend' : findEndOfRun less rounds h a1b0 list.tail = some b1)
    (hmerge : inplaceMerge less rounds h a0 a1b0 b1 = some h') :
    passLoop less rounds list (fuel + 1) h a0 cnt =
      passLoop less rounds list fuel h' b1 (cnt + 1) := by
  rw [passLoop, listEnd, if_neg hne, hend]
  simp only [Option.bind_eq_bind, Option.bind_some, if_neg hne', hend', hmerge]

private theorem Holds.passLoop_spec {n : Nat} {l : List P} (hn : l.length ≤ n)
    (hl : list.Holds h (pre ++ l)) {rounds fuel : Nat} (hrounds : l.length < rounds)
    (hfuel : l.length < fuel) (cnt : Nat) :
    ∃ h', passLoop less rounds list fuel h (l.headD list.tail) cnt =
        some (h', cnt + (sortPass less n l).2) ∧
      list.Holds h' (pre ++ (sortPass less n l).1) ∧
      Links.SameOutside (list.nodes (pre ++ l)) h h' := by
  induction n generalizing h pre l fuel cnt with
  | zero =>
    rw [List.eq_nil_of_length_eq_zero (Nat.le_zero.mp hn)] at hl hfuel ⊢
    obtain ⟨fuel, rfl⟩ := Nat.exists_eq_add_of_lt hfuel
    exact ⟨h, if_pos rfl, hl, Links.SameOutside.refl _ h⟩
  | succ n ih =>
    cases fuel with
    | zero => exact absurd hfuel (Nat.not_lt_zero _)
    | succ fuel =>
      cases l with
      | nil => exact ⟨h, if_pos rfl, hl, Links.SameOutside.refl _ h⟩
      | cons a l =>
        rw [List.length_cons] at hn hrounds hfuel
        have hend := @Holds.findEndOfRun_eq _ _ less _ _ _ _ _ hl rounds (by omega)
        have hne := hl.ne_tail
        obtain ⟨hrun, hhead⟩ := isChain_findEndOfRun less a l
        have happ := findEndOfRun_append less a l
        rcases hfind : Lib.findEndOfRun less a l with ⟨run, _ | ⟨b, rest⟩⟩
        · -- the last run
          rw [hfind] at hend happ
          rw [sortPass_last less hfind]
          refine ⟨h, passLoop_last hne hend, ?_, Links.SameOutside.refl _ h⟩
          rw [List.append_nil] at happ
          rw [happ]
          exact hl
        · -- two runs are merged
          rw [hfind] at hend hrun happ hhead
          simp only [List.headD_cons] at hend hrun happ hhead
          have hstart : list.Holds h ((pre ++ run) ++ b :: rest) := by
            rw [List.append_assoc, happ]
            exact hl
          have hlength : run.length + (rest.length + 1) = l.length + 1 := by
            rw [← List.length_cons, ← List.length_append, happ, List.length_cons]
          have hend' := @Holds.findEndOfRun_eq _ _ less _ _ _ _ _ hstart rounds (by omega)
          have hne' := hstart.ne_tail
          have happ' := findEndOfRun_append less b rest
          have hrun' := (isChain_findEndOfRun less b rest).1
          rw [sortPass_more less hfind]
          generalize Lib.findEndOfRun less b rest = second at happ' hrun' hend' ⊢
          have hlength' : second.1.length + second.2.length = rest.length + 1 := by
            rw [← List.length_append, happ', List.length_cons]
          have hpos : 0 < run.length := List.length_pos_of_mem (List.mem_of_head? hhead)
          have hruns : a :: l = run ++ (second.1 ++ second.2) := by rw [happ', ← happ]
          rw [hruns] at hl ⊢
          obtain ⟨h1, hmerge, hl1, hout1⟩ := @Holds.inplaceMerge_spec _ _ less _ _ _ _ _ _ hl hrun
            hrun' rounds (by omega)
          rw [← hruns, happ'] at hmerge
          rw [← List.append_assoc] at hl1
          obtain ⟨h', hloop, hl', hout⟩ := @ih _ _ second.2 (by omega) hl1 fuel (by omega)
            (by omega) (cnt + 1)
          refine ⟨h', ?_, ?_, hout1.trans (hout.mono ?_)⟩
          · rw [← hruns]
            refine (passLoop_more hne hend hne' hend' hmerge).trans ?_
            rw [hloop, Nat.add_assoc, Nat.add_comm 1]
          · rw [List.append_assoc] at hl'
            exact hl'
          · intro p hp
            simp only [nodes, List.mem_cons, List.mem_append, mem_inplaceMerge] at hp ⊢
            tauto

private theorem Holds.passesLoop_spec [IsTrans P (InOrder less)] [Std.Total (InOrder less)]
    {xs : List P} (hl : list.Holds h xs) {rounds fuel : Nat} (hrounds : xs.length < rounds)
    (hfuel : descents less xs < fuel) :
    ∃ h', passesLoop less rounds list fuel h = some h' ∧
      list.Holds h' (xs.insertionSort (InOrder less)) ∧
      Links.SameOutside (list.nodes xs) h h' := by
  induction fuel generalizing h xs with
  | zero => exact absurd hfuel (Nat.not_lt_zero _)
  | succ fuel ih =>
    obtain ⟨h1, hpass, hl1, hout1⟩ := @Holds.passLoop_spec _ _ less h list [] _ xs (Nat.le_refl _)
      hl rounds rounds hrounds hrounds 0
    have hsame := @sameSort_sortPass _ less _ _ xs.length xs
    have hbegin := hl.listBegin_eq
    rw [passesLoop, hbegin]
    simp only [Option.bind_eq_bind, Option.bind_some, hpass, Nat.zero_add]
    split
    · next hmany =>
      have hlt := descents_sortPass_lt hmany
      have hlength := hsame.perm.length_eq
      obtain ⟨h', hloop, hl', hout⟩ := ih hl1 (by rw [List.nil_append]; omega) (by
        rw [List.nil_append]; omega)
      rw [List.nil_append] at hl' hout
      refine ⟨h', hloop, hsame ▸ hl', hout1.trans (hout.mono ?_)⟩
      intro p hp
      rw [nodes, List.mem_cons, List.mem_append, hsame.perm.mem_iff] at hp
      rw [nodes, List.mem_cons, List.mem_append]
      exact hp
    · next hone =>
      refine ⟨h1, rfl, ?_, hout1⟩
      rw [← sortPass_eq_insertionSort hone]
      exact hl1

private theorem Holds.listSort_spec [IsTrans P (InOrder less)] [Std.Total (InOrder less)]
    {xs : List P} (hl : list.Holds h xs) {rounds : Nat} (hrounds : xs.length < rounds) :
    ∃ h', listSort less rounds h list = some h' ∧
      list.Holds h' (xs.insertionSort (InOrder less)) ∧
      Links.SameOutside (list.nodes xs) h h' := by
  have hdescents := descents_le_length less xs
  obtain ⟨h', hpasses, hl', hout⟩ := @Holds.passesLoop_spec _ _ less _ _ _ _ _ hl _ rounds hrounds
    (by omega)
  have hbegin := hl'.listBegin_eq
  have hchain := (List.pairwise_insertionSort (InOrder less) xs).isChain
  have hlength := (List.perm_insertionSort (InOrder less) xs).length_eq
  have hsorted := @Holds.isSorted_eq _ _ less _ _ [] [] _ (by simpa using hl') hchain rounds
    (by omega)
  rw [List.append_nil] at hsorted
  refine ⟨h', ?_, hl', hout⟩
  rw [listSort, hpasses]
  simp only [Option.bind_eq_bind, Option.bind_some, hbegin]
  rw [listEnd, show isSorted less rounds h' _ list.tail = some true from hsorted]
  rfl

/-- `list_sort` terminates with every assertion kept: more rounds of each loop than the list has
elements are never needed. What it leaves is a permutation in order, with equivalent elements as
they stood, and the links of no other element have changed. -/
theorem list_sort_stable [IsStrictWeakOrder P fun a b => less a b = true] {xs : List P}
    (hl : list.Holds h xs) :
    ∃ ys : List P, ys.Perm xs ∧ ys.IsChain (fun a b => less b a = false) ∧
      (∀ a, ys.filter (fun b => !less a b && !less b a) =
        xs.filter fun b => !less a b && !less b a) ∧
      ∀ rounds, xs.length < rounds → ∃ h', listSort less rounds h list = some h' ∧
        list.Holds h' ys ∧ Links.SameOutside (list.nodes xs) h h' := by
  have htotal := @inOrder_total P less _
  have htrans := @inOrder_trans P less _
  refine ⟨xs.insertionSort (InOrder less), List.perm_insertionSort _ xs, ?_,
    filter_insertionSort xs, fun rounds hrounds => hl.listSort_spec hrounds⟩
  exact (List.pairwise_insertionSort (InOrder less) xs).isChain

/-- Three elements between the headers 0 and 4. -/
def threeLinks : Links Nat where
  prev p := [none, some 2, some 3, some 0, some 1].getD p none
  next p := [some 3, some 4, some 1, some 2, none].getD p none

/-- The elements are ordered by their halves: 2 and 3 are equivalent. -/
theorem list_sort_stable_three :
    ∃ ys : List Nat, ys.Perm [3, 2, 1] ∧ ys.IsChain (fun a b => decide (b / 2 < a / 2) = false) ∧
      (∀ a, ys.filter (fun b => !decide (a / 2 < b / 2) && !decide (b / 2 < a / 2)) =
        [3, 2, 1].filter fun b => !decide (a / 2 < b / 2) && !decide (b / 2 < a / 2)) ∧
      ∀ rounds, 3 < rounds → ∃ h',
        listSort (fun a b => decide (a / 2 < b / 2)) rounds threeLinks ⟨0, 4⟩ = some h' ∧
        LinkedList.Holds ⟨0, 4⟩ h' ys ∧
        Links.SameOutside (LinkedList.nodes ⟨0, 4⟩ [3, 2, 1]) threeLinks h' := by
  have hl : LinkedList.Holds ⟨0, 4⟩ threeLinks [3, 2, 1] := by
    constructor
    · rfl
    · rfl
    · simp only [Links.Chained, List.cons_append, List.nil_append, List.isChain_cons_cons,
        List.isChain_singleton, and_true]
      exact ⟨⟨rfl, rfl⟩, ⟨rfl, rfl⟩, ⟨rfl, rfl⟩, ⟨rfl, rfl⟩⟩
    · decide
  have horder : IsStrictWeakOrder Nat fun a b => decide (a / 2 < b / 2) = true :=
    { irrefl := by simp
      trans := fun a b c hab hbc => by rw [decide_eq_true_eq] at *; omega
      incomp_trans := fun a b c hab hbc => by simp only [decide_eq_true_eq] at *; omega }
  exact list_sort_stable hl

end LinkedList

end Pintos.Lib

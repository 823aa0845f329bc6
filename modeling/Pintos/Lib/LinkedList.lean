import Pintos.Base.DoublyLinked

/-!
# The doubly linked lists of the kernel

`struct list` over a heap of `struct list_elem`: an element is its address, the list the addresses
of its two header elements. A failed assertion and the use of a null pointer give none.
Source `lib/kernel/list.c:37–228`.
-/

namespace Pintos.Lib

open Base

variable {P : Type}

/-- `struct list`: the header elements. -/
structure LinkedList (P : Type) where
  head : P
  tail : P

namespace LinkedList

/-- The list holds the elements. -/
def Holds (list : LinkedList P) (h : Links P) (xs : List P) : Prop :=
  h.Holds list.head list.tail xs

/-- The elements together with the header elements. -/
def nodes (list : LinkedList P) (xs : List P) : List P := list.head :: (xs ++ [list.tail])

/-- `is_head`, `lib/kernel/list.c:37–41`. -/
def isHead (h : Links P) (elem : P) : Bool := (h.prev elem).isNone && (h.next elem).isSome

/-- `is_interior`, `lib/kernel/list.c:45–49`. -/
def isInterior (h : Links P) (elem : P) : Bool := (h.prev elem).isSome && (h.next elem).isSome

/-- `is_tail`, `lib/kernel/list.c:52–56`. -/
def isTail (h : Links P) (elem : P) : Bool := (h.prev elem).isSome && (h.next elem).isNone

/-- `list_begin`, `lib/kernel/list.c:70–75`. -/
def listBegin (h : Links P) (list : LinkedList P) : Option P := h.next list.head

/-- `list_end`, `lib/kernel/list.c:92–97`. -/
def listEnd (list : LinkedList P) : P := list.tail

/-- `list_next`, `lib/kernel/list.c:80–85`. -/
def listNext (h : Links P) (elem : P) : Option P := do
  guard (isHead h elem || isInterior h elem)
  h.next elem

/-- `list_prev`, `lib/kernel/list.c:111–116`. -/
def listPrev (h : Links P) (elem : P) : Option P := do
  guard (isInterior h elem || isTail h elem)
  h.prev elem

/-- `list_splice`, `lib/kernel/list.c:182–204`. -/
def listSplice [DecidableEq P] (h : Links P) (before first last : P) : Option (Links P) := do
  guard (isInterior h before || isTail h before)
  if first = last then
    return h
  let last ← listPrev h last
  guard (isInterior h first)
  guard (isInterior h last)
  -- first->prev->next = last->next
  let firstPrev ← h.prev first
  let h := h.setNext firstPrev (h.next last)
  -- last->next->prev = first->prev
  let lastNext ← h.next last
  let h := h.setPrev lastNext (h.prev first)
  let h := h.setPrev first (h.prev before)
  let h := h.setNext last (some before)
  -- before->prev->next = first
  let beforePrev ← h.prev before
  let h := h.setNext beforePrev (some first)
  return h.setPrev before (some last)

variable {h : Links P} {list : LinkedList P} {pre suf : List P} {a b : P}

theorem headD_mem_nodes (list : LinkedList P) (pre suf : List P) :
    suf.headD list.tail ∈ list.nodes (pre ++ suf) := by
  rw [nodes, List.append_assoc, ← List.cons_append]
  exact List.mem_append_right _ (List.mem_of_head? (Links.head?_append_tail suf list.tail))

theorem getLastD_mem_nodes (list : LinkedList P) (pre suf : List P) :
    pre.getLastD list.head ∈ list.nodes (pre ++ suf) := by
  rw [nodes, List.append_assoc, ← List.cons_append]
  exact List.mem_append_left _ (List.mem_of_getLast? (Links.getLast?_cons_head list.head pre))

theorem nodes_perm (list : LinkedList P) (pre mid suf : List P) :
    (list.nodes (pre ++ mid ++ suf)).Perm (mid ++ list.nodes (pre ++ suf)) := by
  rw [nodes, nodes, List.append_assoc, List.append_assoc, List.append_assoc]
  exact ((List.perm_append_comm_assoc pre mid _).cons _).trans List.perm_middle.symm

theorem Holds.listBegin_eq {xs : List P} (hl : list.Holds h xs) :
    listBegin h list = some (xs.headD list.tail) :=
  (@Links.Holds.joined_between _ _ _ _ [] xs hl).next

private theorem isInterior_of_joined {c : P} (hab : h.Joined a b) (hbc : h.Joined b c) :
    isInterior h b = true := by
  rw [isInterior, hab.prev, hbc.next]
  rfl

theorem Holds.isInterior_eq (hl : list.Holds h (pre ++ a :: suf)) : isInterior h a = true :=
  isInterior_of_joined hl.joined.1 hl.joined.2

theorem Holds.listNext_eq (hl : list.Holds h (pre ++ a :: suf)) :
    listNext h a = some (suf.headD list.tail) := by
  rw [listNext, hl.isInterior_eq, Bool.or_true, hl.joined.2.next]
  rfl

private theorem interior_or_tail_iff (h : Links P) (elem : P) :
    (isInterior h elem || isTail h elem) = (h.prev elem).isSome := by
  rw [isInterior, isTail]
  cases h.next elem with
  | none => simp
  | some _ => simp

/-- The element after one of the list, or the tail, is in it or is the tail. -/
theorem Holds.interior_or_tail (hl : list.Holds h (pre ++ suf)) :
    (isInterior h (suf.headD list.tail) || isTail h (suf.headD list.tail)) = true := by
  rw [interior_or_tail_iff, hl.joined_between.prev]
  rfl

theorem Holds.listPrev_eq (hl : list.Holds h (pre ++ a :: suf)) :
    listPrev h (suf.headD list.tail) = some a := by
  have hbetween : list.Holds h ((pre ++ [a]) ++ suf) := by
    rw [List.append_assoc]
    exact hl
  rw [listPrev, hbetween.interior_or_tail, hl.joined.2.prev]
  rfl

/-- An element of the list is not the one that follows it or a later one. -/
theorem Holds.ne_headD {l : List P} (hl : list.Holds h (pre ++ a :: l ++ suf)) :
    a ≠ suf.headD list.tail := by
  have hnot := hl.around_not_mem.2
  exact fun heq => hnot (heq ▸ List.mem_cons_self)

theorem Holds.ne_tail {l : List P} (hl : list.Holds h (pre ++ a :: l)) : a ≠ list.tail := by
  rw [← List.append_nil (pre ++ a :: l)] at hl
  exact hl.ne_headD

variable [DecidableEq P]

/-- The links that `list_splice` writes, if `first` to `last` stand between `left` and `right`, and
`before` comes after `beforePrev` once they are taken out. -/
theorem listSplice_eq {before first last left right beforePrev : P}
    (hbefore : (isInterior h before || isTail h before) = true)
    (hright : listPrev h right = some last) (hfirst : isInterior h first = true)
    (hlast : isInterior h last = true) (hleft : h.Joined left first) (hright' : h.Joined last right)
    (hprev : (h.join left right).prev before = some beforePrev) (hne : first ≠ right)
    (hne1 : last ≠ left) (hne2 : before ≠ first) (hne3 : beforePrev ≠ last) :
    listSplice h before first right =
      some (((h.join left right).join beforePrev first).join last before) := by
  have hnext : (h.setNext left (some right)).next last = some right := by
    change Function.update h.next left (some right) last = some right
    rw [Function.update_of_ne hne1, hright'.next]
  have hprev' : (Function.update (h.join left right).prev first (some beforePrev)) before =
      some beforePrev := by
    rw [Function.update_of_ne hne2, hprev]
  have hcut : (h.setNext left (some right)).setPrev right (some left) = h.join left right := rfl
  unfold listSplice
  rw [hbefore, if_neg hne, hright, hfirst]
  simp only [Option.bind_eq_bind, Option.bind_some, guard, if_true, hlast, hleft.prev, hright'.next,
    pure, hnext, Links.prev_setNext]
  rw [hcut, hprev]
  change Option.bind (Function.update (h.join left right).prev first _ before) _ = _
  rw [hprev', Option.bind_some, Links.join_join_comm _ hne3]
  rfl

/-- `list_splice` cuts the range out of its list and pastes it into the other, or into what is left
of the same list. -/
theorem Holds.listSplice_spec {src dst : LinkedList P} {pre mid suf pre' suf' : List P}
    {first last : P} (hsrc : src.Holds h (pre ++ mid ++ suf)) (hfirst : mid.head? = some first)
    (hlast : mid.getLast? = some last)
    (hdst : dst.Holds (h.join (pre.getLastD src.head) (suf.headD src.tail)) (pre' ++ suf'))
    (hoff : ∀ x ∈ mid, x ∉ dst.nodes (pre' ++ suf')) :
    ∃ h', listSplice h (suf'.headD dst.tail) first (suf.headD src.tail) = some h' ∧
      dst.Holds h' (pre' ++ mid ++ suf') ∧
      h' = ((h.join (pre.getLastD src.head) (suf.headD src.tail)).join (pre'.getLastD dst.head)
        first).join last (suf'.headD dst.tail) := by
  have hfirstMem := List.mem_of_head? hfirst
  have hlastMem := List.mem_of_getLast? hlast
  obtain ⟨hleftNot, hrightNot⟩ := hsrc.around_not_mem
  -- the list as it is seen from the ends of the range
  obtain ⟨mid1, hmid1⟩ := List.head?_eq_some_iff.mp hfirst
  obtain ⟨mid2, hmid2⟩ := List.getLast?_eq_some_iff.mp hlast
  have hsrcFirst : src.Holds h (pre ++ first :: (mid1 ++ suf)) := by
    simpa only [List.append_assoc, List.cons_append, hmid1] using hsrc
  have hsrcLast : src.Holds h ((pre ++ mid2) ++ last :: suf) := by
    simpa only [List.append_assoc, List.cons_append, List.nil_append, hmid2] using hsrc
  have hbefore := hdst.joined_between.prev
  have hbeforeMem := dst.headD_mem_nodes pre' suf'
  have hprevMem := dst.getLastD_mem_nodes pre' suf'
  have hnodup : (dst.nodes (pre' ++ mid ++ suf')).Nodup := by
    rw [(dst.nodes_perm pre' mid suf').nodup_iff, List.nodup_append]
    have hmid := (src.nodes_perm pre mid suf).nodup_iff.mp hsrc.nodup
    exact ⟨(List.nodup_append.mp hmid).1, hdst.nodup, fun x hx y hy heq => hoff x hx (heq ▸ hy)⟩
  refine ⟨_, listSplice_eq ?_ hsrcLast.listPrev_eq hsrcFirst.isInterior_eq hsrcLast.isInterior_eq
    hsrcFirst.joined.1 hsrcLast.joined.2 hbefore ?_ ?_ ?_ ?_,
    Links.Holds.paste hdst hsrc.chained_cut hfirst hlast hnodup, rfl⟩
  · rw [interior_or_tail_iff]
    by_cases heq : suf'.headD dst.tail = suf.headD src.tail
    · rw [heq, hsrcLast.joined.2.prev]
      rfl
    · rw [Links.prev_join_of_ne heq] at hbefore
      rw [hbefore]
      rfl
  · exact fun heq => hrightNot (heq ▸ hfirstMem)
  · exact fun heq => hleftNot (heq ▸ hlastMem)
  · exact fun heq => hoff first hfirstMem (heq ▸ hbeforeMem)
  · exact fun heq => hoff last hlastMem (heq ▸ hprevMem)

theorem Holds.listSplice_one {x y : P} {xs : List P}
    (hl : list.Holds h (pre ++ (x :: xs ++ y :: suf))) :
    ∃ h', listSplice h x y (suf.headD list.tail) = some h' ∧
      list.Holds h' (pre ++ y :: (x :: xs ++ suf)) ∧
      Links.SameOutside (list.nodes (pre ++ (x :: xs ++ y :: suf))) h h' := by
  have heq : pre ++ (x :: xs ++ y :: suf) = (pre ++ x :: xs) ++ [y] ++ suf := by
    simp only [List.append_assoc, List.cons_append, List.nil_append]
  rw [heq] at hl ⊢
  have hperm := list.nodes_perm (pre ++ x :: xs) [y] suf
  have hy := (List.nodup_cons.mp (hperm.nodup_iff.mp hl.nodup)).1
  have hdst := hl.cut
  have hleft := list.getLastD_mem_nodes (pre ++ x :: xs) suf
  have hright := list.headD_mem_nodes (pre ++ x :: xs) suf
  rw [List.append_assoc pre (x :: xs) suf] at hdst hy hperm hleft hright
  obtain ⟨h', hsplice, hl', rfl⟩ := hl.listSplice_spec rfl rfl hdst (by simpa using hy)
  refine ⟨_, hsplice, ?_, ?_⟩
  · rw [List.append_assoc] at hl'
    exact hl'
  · have hmem : ∀ p ∈ y :: list.nodes (pre ++ (x :: xs ++ suf)),
        p ∈ list.nodes (pre ++ x :: xs ++ [y] ++ suf) := fun p hp => hperm.mem_iff.mpr hp
    have hy' := hmem y List.mem_cons_self
    apply (Links.sameOutside_join h (hmem _ (List.mem_cons_of_mem y hleft))
      (hmem _ (List.mem_cons_of_mem y hright))).trans
    apply (Links.sameOutside_join _ (hmem _ (List.mem_cons_of_mem y
      (list.getLastD_mem_nodes pre (x :: xs ++ suf)))) hy').trans
    exact Links.sameOutside_join _ hy' (hmem _ (List.mem_cons_of_mem y
      (list.headD_mem_nodes pre (x :: xs ++ suf))))

end LinkedList

end Pintos.Lib

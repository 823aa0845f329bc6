import Mathlib.Data.List.Chain
import Mathlib.Data.List.Nodup
import Mathlib.Logic.Function.Basic

/-!
# Doubly linked lists

Nodes linked forwards and backwards. A list between two sentinel nodes holds a sequence of nodes
if all neighbours are joined both ways; cutting a range out and pasting one in, by joining the
nodes at its ends anew, are removal and insertion on the sequence.
-/

namespace Pintos.Base

universe u

/-- The two links of every node. -/
structure Links (P : Type u) where
  prev : P → Option P
  next : P → Option P

namespace Links

variable {P : Type u}

/-- The nodes are neighbours in both directions. -/
structure Joined (h : Links P) (a b : P) : Prop where
  next : h.next a = some b
  prev : h.prev b = some a

/-- The nodes follow each other. -/
def Chained (h : Links P) (l : List P) : Prop := l.IsChain h.Joined

/-- The list between the sentinels `head` and `tail` holds the nodes `xs`. -/
structure Holds (h : Links P) (head tail : P) (xs : List P) : Prop where
  prev_head : h.prev head = none
  next_tail : h.next tail = none
  chained : h.Chained (head :: (xs ++ [tail]))
  nodup : (head :: (xs ++ [tail])).Nodup

/-- Only nodes of the list have got other links. -/
def SameOutside (l : List P) (h h' : Links P) : Prop :=
  ∀ p, p ∉ l → h'.prev p = h.prev p ∧ h'.next p = h.next p

section

variable {h : Links P} {a b head tail : P} {pre suf : List P}

private theorem not_mem_dropLast {l : List P} (ha : l.getLast? = some a) (hl : l.Nodup) :
    a ∉ l.dropLast := by
  obtain ⟨l, rfl⟩ := List.getLast?_eq_some_iff.mp ha
  rw [List.dropLast_concat]
  exact fun h => (List.nodup_append.mp hl).2.2 a h a List.mem_cons_self rfl

private theorem not_mem_tail {l : List P} (hb : l.head? = some b) (hl : l.Nodup) : b ∉ l.tail := by
  obtain ⟨l, rfl⟩ := List.head?_eq_some_iff.mp hb
  exact (List.nodup_cons.mp hl).1

theorem head?_append_tail (suf : List P) (tail : P) :
    (suf ++ [tail]).head? = some (suf.headD tail) := by
  cases suf with
  | nil => rfl
  | cons a suf => rfl

theorem getLast?_cons_head (head : P) (pre : List P) :
    (head :: pre).getLast? = some (pre.getLastD head) := by
  rw [List.getLast?_cons, List.getLastD_eq_getLast?]

theorem Holds.split (hl : h.Holds head tail (pre ++ suf)) :
    h.Chained (head :: pre) ∧ h.Chained (suf ++ [tail]) := by
  have hchain := hl.chained
  rw [Chained, List.append_assoc, ← List.cons_append, List.isChain_append] at hchain
  exact ⟨hchain.1, hchain.2.1⟩

theorem SameOutside.refl (l : List P) (h : Links P) : SameOutside l h h := fun _ _ => ⟨rfl, rfl⟩

theorem SameOutside.trans {l : List P} {h1 h2 h3 : Links P} (h12 : SameOutside l h1 h2)
    (h23 : SameOutside l h2 h3) : SameOutside l h1 h3 := by
  intro p hp
  rw [(h23 p hp).1, (h23 p hp).2]
  exact h12 p hp

theorem SameOutside.mono {l m : List P} {h1 h2 : Links P} (hl : SameOutside l h1 h2)
    (hlm : l ⊆ m) : SameOutside m h1 h2 :=
  fun p hp => hl p fun h => hp (hlm h)

theorem Holds.joined (hl : h.Holds head tail (pre ++ a :: suf)) :
    h.Joined (pre.getLastD head) a ∧ h.Joined a (suf.headD tail) := by
  have hchain := hl.chained
  rw [Chained, List.append_assoc, ← List.cons_append, List.isChain_append] at hchain
  obtain ⟨-, hsuf, hpre⟩ := hchain
  constructor
  · exact hpre _ (getLast?_cons_head head pre) a rfl
  · cases suf with
    | nil => exact (List.isChain_cons_cons.mp hsuf).1
    | cons b suf => exact (List.isChain_cons_cons.mp hsuf).1

private theorem Holds.joined_tail {xs : List P} (hl : h.Holds head tail xs) :
    h.Joined (xs.getLastD head) tail := by
  have hchain := hl.chained
  rw [Chained, ← List.cons_append, List.isChain_append] at hchain
  exact hchain.2.2 _ (getLast?_cons_head head xs) tail rfl

/-- The node after the ones in `pre`, or the tail, and the node before it. -/
theorem Holds.joined_between (hl : h.Holds head tail (pre ++ suf)) :
    h.Joined (pre.getLastD head) (suf.headD tail) := by
  cases suf with
  | nil =>
    rw [List.append_nil] at hl
    exact hl.joined_tail
  | cons a suf => exact hl.joined.1

end

variable [DecidableEq P]

/-- Write the link to the node before. -/
def setPrev (h : Links P) (a : P) (b : Option P) : Links P :=
  { h with prev := Function.update h.prev a b }

/-- Write the link to the node after. -/
def setNext (h : Links P) (a : P) (b : Option P) : Links P :=
  { h with next := Function.update h.next a b }

@[simp] theorem prev_setNext (h : Links P) (a : P) (b : Option P) :
    (h.setNext a b).prev = h.prev := rfl

@[simp] theorem next_setPrev (h : Links P) (a : P) (b : Option P) :
    (h.setPrev a b).next = h.next := rfl

/-- Make two nodes neighbours. -/
def join (h : Links P) (a b : P) : Links P := (h.setNext a (some b)).setPrev b (some a)

theorem join_join_comm {a b c d : P} (h : Links P) (hac : a ≠ c) :
    ((h.setPrev b (some a)).setNext c (some d)).setNext a (some b) =
      (h.join a b).setNext c (some d) := by
  change Links.mk _ _ = Links.mk _ _
  rw [Links.mk.injEq]
  exact ⟨rfl, Function.update_comm hac.symm _ _ _⟩

variable {h : Links P} {a b x y : P}

private theorem joined_join (h : Links P) (a b : P) : (h.join a b).Joined a b :=
  ⟨Function.update_self a _ _, Function.update_self b _ _⟩

theorem prev_join_of_ne (hx : x ≠ b) : (h.join a b).prev x = h.prev x :=
  Function.update_of_ne hx _ _

theorem next_join_of_ne (hx : x ≠ a) : (h.join a b).next x = h.next x :=
  Function.update_of_ne hx _ _

theorem sameOutside_join {l : List P} (h : Links P) (ha : a ∈ l) (hb : b ∈ l) :
    SameOutside l h (h.join a b) := by
  intro p hp
  constructor
  · exact prev_join_of_ne fun heq => hp (heq ▸ hb)
  · exact next_join_of_ne fun heq => hp (heq ▸ ha)

private theorem Joined.join (hxy : h.Joined x y) (hx : x ≠ a) (hy : y ≠ b) :
    (h.join a b).Joined x y := by
  constructor
  · rw [next_join_of_ne hx, hxy.next]
  · rw [prev_join_of_ne hy, hxy.prev]

private theorem Chained.join {l : List P} (hl : h.Chained l) (ha : a ∉ l.dropLast)
    (hb : b ∉ l.tail) :
    (h.join a b).Chained l := by
  induction l with
  | nil => exact List.isChain_nil
  | cons x l ih =>
    cases l with
    | nil => exact List.isChain_singleton x
    | cons y l =>
      rw [List.dropLast_cons_cons, List.mem_cons, not_or] at ha
      rw [List.tail_cons, List.mem_cons, not_or] at hb
      obtain ⟨hxy, hrest⟩ := List.isChain_cons_cons.mp hl
      apply List.isChain_cons_cons.mpr
      exact ⟨hxy.join (Ne.symm ha.1) (Ne.symm hb.1), ih hrest ha.2 hb.2⟩

theorem Chained.bridge {l m : List P} (hl : h.Chained l) (hm : h.Chained m)
    (ha : l.getLast? = some a) (hb : m.head? = some b) (hnodup : (l ++ m).Nodup) :
    (h.join a b).Chained (l ++ m) := by
  obtain ⟨hndl, hndm, hdisj⟩ := List.nodup_append.mp hnodup
  have hal : a ∈ l := List.mem_of_getLast? ha
  have hbm : b ∈ m := List.mem_of_head? hb
  apply List.isChain_append.mpr
  refine ⟨?_, ?_, ?_⟩
  · apply hl.join (not_mem_dropLast ha hndl)
    exact fun h => hdisj b (List.mem_of_mem_tail h) b hbm rfl
  · apply hm.join _ (not_mem_tail hb hndm)
    exact fun h => hdisj a hal a (List.dropLast_subset _ h) rfl
  · intro x hx y hy
    rw [ha, Option.mem_def, Option.some.injEq] at hx
    rw [hb, Option.mem_def, Option.some.injEq] at hy
    subst hx hy
    exact h.joined_join a b

variable {head tail : P} {pre mid suf : List P}

theorem Holds.of_bridge (hpre : h.Chained (head :: pre)) (hsuf : h.Chained (suf ++ [tail]))
    (hnodup : (head :: (pre ++ suf ++ [tail])).Nodup) (hhead : h.prev head = none)
    (htail : h.next tail = none) :
    (h.join (pre.getLastD head) (suf.headD tail)).Holds head tail (pre ++ suf) := by
  have hnodup' := hnodup
  rw [List.append_assoc, ← List.cons_append] at hnodup'
  have hdisj := (List.nodup_append.mp hnodup').2.2
  have hlast := List.mem_of_getLast? (getLast?_cons_head head pre)
  have hfirst := List.mem_of_head? (head?_append_tail suf tail)
  constructor
  · rw [prev_join_of_ne (hdisj head List.mem_cons_self _ hfirst), hhead]
  · have htl : tail ∈ suf ++ [tail] := List.mem_append_right suf List.mem_cons_self
    rw [next_join_of_ne (hdisj _ hlast tail htl).symm, htail]
  · rw [List.append_assoc, ← List.cons_append]
    exact hpre.bridge hsuf (getLast?_cons_head head pre) (head?_append_tail suf tail) hnodup'
  · exact hnodup

theorem Holds.cut (hl : h.Holds head tail (pre ++ mid ++ suf)) :
    (h.join (pre.getLastD head) (suf.headD tail)).Holds head tail (pre ++ suf) := by
  have hsuf := hl.split.2
  rw [List.append_assoc] at hl
  have hpre := hl.split.1
  apply Holds.of_bridge hpre hsuf _ hl.prev_head hl.next_tail
  apply List.Nodup.sublist _ hl.nodup
  apply List.Sublist.cons_cons
  rw [List.append_assoc pre, List.append_assoc pre, List.append_assoc mid]
  exact (List.sublist_append_right mid _).append_left pre

omit [DecidableEq P] in
/-- What surrounds a middle piece of a list is not in it. -/
theorem Holds.around_not_mem (hl : h.Holds head tail (pre ++ mid ++ suf)) :
    pre.getLastD head ∉ mid ∧ suf.headD tail ∉ mid := by
  have hnodup := hl.nodup
  rw [List.append_assoc, ← List.cons_append, ← List.cons_append] at hnodup
  obtain ⟨hleft, -, hright⟩ := List.nodup_append.mp hnodup
  constructor
  · intro hmem
    have hlast := List.mem_of_getLast? (getLast?_cons_head head pre)
    exact (List.nodup_append.mp hleft).2.2 _ hlast _ hmem rfl
  · intro hmem
    have hfirst := List.mem_of_head? (head?_append_tail suf tail)
    exact hright _ (List.mem_append_right _ hmem) _ hfirst rfl

theorem Holds.chained_cut (hl : h.Holds head tail (pre ++ mid ++ suf)) :
    (h.join (pre.getLastD head) (suf.headD tail)).Chained mid := by
  obtain ⟨hlast, hfirst⟩ := hl.around_not_mem
  have hpre := hl.split.1
  rw [Chained, ← List.cons_append, List.isChain_append] at hpre
  apply Chained.join hpre.2.1
  · exact fun hmem => hlast (List.dropLast_subset _ hmem)
  · exact fun hmem => hfirst (List.mem_of_mem_tail hmem)

theorem Holds.paste {first last : P} (hl : h.Holds head tail (pre ++ suf)) (hmid : h.Chained mid)
    (hfirst : mid.head? = some first) (hlast : mid.getLast? = some last)
    (hnodup : (head :: (pre ++ mid ++ suf ++ [tail])).Nodup) :
    ((h.join (pre.getLastD head) first).join last (suf.headD tail)).Holds head tail
      (pre ++ mid ++ suf) := by
  obtain ⟨hpre, hsuf⟩ := hl.split
  have hfirstMem := List.mem_of_head? hfirst
  have hlastD : (pre ++ mid).getLastD head = last := by
    rw [List.getLastD_eq_getLast?, List.getLast?_append, hlast]
    rfl
  -- the nodes before, in and after the pasted range are different
  have hnodup' := hnodup
  rw [List.append_assoc, ← List.cons_append, ← List.cons_append] at hnodup'
  obtain ⟨hleft, -, hright⟩ := List.nodup_append.mp hnodup'
  have hmidDisj := (List.nodup_append.mp hleft).2.2
  have hpreLast := List.mem_of_getLast? (getLast?_cons_head head pre)
  have hne : ∀ x ∈ suf ++ [tail], x ≠ pre.getLastD head ∧ x ≠ first := by
    intro x hx
    constructor
    · exact (hright _ (List.mem_append_left mid hpreLast) x hx).symm
    · exact (hright _ (List.mem_append_right _ hfirstMem) x hx).symm
  rw [← hlastD]
  apply Holds.of_bridge
  · rw [← List.cons_append]
    exact hpre.bridge hmid (getLast?_cons_head head pre) hfirst hleft
  · apply hsuf.join
    · exact fun h => (hne _ (List.dropLast_subset _ h)).1 rfl
    · exact fun h => (hne _ (List.mem_of_mem_tail h)).2 rfl
  · exact hnodup
  · rw [prev_join_of_ne (hmidDisj head List.mem_cons_self first hfirstMem), hl.prev_head]
  · rw [next_join_of_ne (hne tail (List.mem_append_right suf List.mem_cons_self)).1, hl.next_tail]

end Links

end Pintos.Base

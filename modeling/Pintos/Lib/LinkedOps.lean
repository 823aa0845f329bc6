import Pintos.Lib.LinkedList
import Pintos.Lib.List

/-!
# The operations on linked lists

Insertion, removal, splicing, reversal and the removal of duplicates on the links of a heap that
holds any number of disjoint lists, and what they do to the sequences of elements. Every loop is
given a bound on its rounds; none is the answer of a loop that exceeds it.
Source `lib/kernel/list.c:165–337, 442–486`.
-/

namespace Pintos.Lib

open Base

namespace LinkedList

section

variable {P : Type} [DecidableEq P]

/-- `list_insert`, `lib/kernel/list.c:168–178`. -/
def listInsert (h : Links P) (before elem : P) : Option (Links P) := do
  guard (isInterior h before || isTail h before)
  let h := h.setPrev elem (h.prev before)
  let h := h.setNext elem (some before)
  -- before->prev->next = elem
  let beforePrev ← h.prev before
  let h := h.setNext beforePrev (some elem)
  return h.setPrev before (some elem)

/-- `list_remove`, `lib/kernel/list.c:248–255`. -/
def listRemove (h : Links P) (elem : P) : Option (Links P × P) := do
  guard (isInterior h elem)
  -- elem->prev->next = elem->next
  let elemPrev ← h.prev elem
  let h := h.setNext elemPrev (h.next elem)
  -- elem->next->prev = elem->prev
  let elemNext ← h.next elem
  let h := h.setPrev elemNext (h.prev elem)
  let following ← h.next elem
  return (h, following)

/-- `list_push_front`, `lib/kernel/list.c:208–212`. -/
def listPushFront (h : Links P) (list : LinkedList P) (elem : P) : Option (Links P) := do
  listInsert h (← listBegin h list) elem

/-- `list_push_back`, `lib/kernel/list.c:216–220`. -/
def listPushBack (h : Links P) (list : LinkedList P) (elem : P) : Option (Links P) :=
  listInsert h (listEnd list) elem

/-- `list_empty`, `lib/kernel/list.c:309–313`. -/
def listEmpty (h : Links P) (list : LinkedList P) : Bool := listBegin h list = some (listEnd list)

/-- `list_front`, `lib/kernel/list.c:279–284`. -/
def listFront (h : Links P) (list : LinkedList P) : Option P := do
  guard (!listEmpty h list)
  h.next list.head

/-- `list_back`, `lib/kernel/list.c:288–293`. -/
def listBack (h : Links P) (list : LinkedList P) : Option P := do
  guard (!listEmpty h list)
  h.prev list.tail

/-- `list_pop_front`, `lib/kernel/list.c:259–265`. -/
def listPopFront (h : Links P) (list : LinkedList P) : Option (Links P × P) := do
  let front ← listFront h list
  let (h, _) ← listRemove h front
  return (h, front)

/-- `list_pop_back`, `lib/kernel/list.c:269–275`. -/
def listPopBack (h : Links P) (list : LinkedList P) : Option (Links P × P) := do
  let back ← listBack h list
  let (h, _) ← listRemove h back
  return (h, back)

/-- The loop of `list_reverse`, `lib/kernel/list.c:332–333`. -/
def reverseLoop (list : LinkedList P) : Nat → Links P → P → Option (Links P)
  | 0, _, _ => none
  | fuel + 1, h, e =>
    if e = listEnd list then some h
    else do
      let h := (h.setPrev e (h.next e)).setNext e (h.prev e)
      let e ← h.prev e
      reverseLoop list fuel h e

/-- `list_reverse`, `lib/kernel/list.c:325–337`. -/
def listReverse (rounds : Nat) (h : Links P) (list : LinkedList P) : Option (Links P) :=
  if listEmpty h list then some h
  else do
    let h ← reverseLoop list rounds h (← listBegin h list)
    let h := (h.setNext list.head (h.prev list.tail)).setPrev list.tail (h.next list.head)
    let first ← h.next list.head
    let last ← h.prev list.tail
    return (h.setPrev first (h.next last)).setNext last (h.prev first)

variable (less : P → P → Bool)

/-- The loop of `list_insert_ordered`, `lib/kernel/list.c:455–457`. -/
def insertOrderedLoop (h : Links P) (list : LinkedList P) (elem : P) : Nat → P → Option P
  | 0, _ => none
  | fuel + 1, e =>
    if e = listEnd list then some e
    else if less elem e then some e
    else do insertOrderedLoop h list elem fuel (← listNext h e)

/-- `list_insert_ordered`, `lib/kernel/list.c:445–459`. -/
def listInsertOrdered (rounds : Nat) (h : Links P) (list : LinkedList P) (elem : P) :
    Option (Links P) := do
  let e ← insertOrderedLoop less h list elem rounds (← listBegin h list)
  listInsert h e elem

/-- What becomes of a duplicate, `lib/kernel/list.c:481–482`. -/
def pushDuplicate (h : Links P) (next : P) : Option (LinkedList P) → Option (Links P)
  | none => some h
  | some duplicates => listPushBack h duplicates next

/-- The loop of `list_unique`, `lib/kernel/list.c:477–485`. -/
def uniqueLoop (list : LinkedList P) (duplicates : Option (LinkedList P)) :
    Nat → Links P → P → Option (Links P)
  | 0, _, _ => none
  | fuel + 1, h, elem => do
    let next ← listNext h elem
    if next = listEnd list then
      return h
    if !less elem next && !less next elem then
      let (h, _) ← listRemove h next
      let h ← pushDuplicate h next duplicates
      uniqueLoop list duplicates fuel h elem
    else uniqueLoop list duplicates fuel h next

/-- `list_unique`, `lib/kernel/list.c:465–486`. -/
def listUnique (rounds : Nat) (h : Links P) (list : LinkedList P)
    (duplicates : Option (LinkedList P)) : Option (Links P) :=
  if listEmpty h list then some h
  else do uniqueLoop less list duplicates rounds h (← listBegin h list)

end

/-! ## Disjoint lists -/

variable {ι P : Type}

/-- The heap holds the sequences in the lists, which have no elements in common. -/
structure Represents (lists : ι → LinkedList P) (h : Links P) (σ : ι → List P) : Prop where
  holds : ∀ i, (lists i).Holds h (σ i)
  disjoint : ∀ i j, i ≠ j → ∀ x ∈ (lists i).nodes (σ i), x ∉ (lists j).nodes (σ j)

/-- The element is in no list. -/
def Off (lists : ι → LinkedList P) (σ : ι → List P) (x : P) : Prop :=
  ∀ i, x ∉ (lists i).nodes (σ i)

private theorem Holds.of_sameOutside {list : LinkedList P} {h h' : Links P} {xs l : List P}
    (hl : list.Holds h xs) (hout : Links.SameOutside l h h') (hdisj : ∀ x ∈ list.nodes xs, x ∉ l) :
    list.Holds h' xs where
  prev_head := by
    rw [(hout _ (hdisj _ List.mem_cons_self)).1]
    exact hl.prev_head
  next_tail := by
    rw [(hout _ (hdisj _ (List.mem_cons_of_mem _ List.mem_concat_self))).2]
    exact hl.next_tail
  chained := by
    apply hl.chained.imp_of_mem_imp
    intro a b ha hb hab
    constructor
    · rw [(hout a (hdisj a ha)).2, hab.next]
    · rw [(hout b (hdisj b hb)).1, hab.prev]
  nodup := hl.nodup

section

variable [DecidableEq ι] {lists : ι → LinkedList P} {h h' : Links P} {σ : ι → List P} {i : ι}
  {pre mid suf : List P}

/-- One list gets another sequence, made from its own elements and others that are in no list. -/
theorem Represents.replace (hr : Represents lists h σ) {xs l : List P} (hi : (lists i).Holds h' xs)
    (hout : Links.SameOutside l h h') (hsub : (lists i).nodes xs ⊆ l)
    (hl : ∀ x ∈ l, ∀ j, j ≠ i → x ∉ (lists j).nodes (σ j)) :
    Represents lists h' (Function.update σ i xs) where
  holds j := by
    by_cases hj : j = i
    · subst hj
      rw [Function.update_self]
      exact hi
    · rw [Function.update_of_ne hj]
      exact (hr.holds j).of_sameOutside hout fun x hx hxl => hl x hxl j hj hx
  disjoint j k hjk x hx := by
    by_cases hj : j = i
    · subst hj
      rw [Function.update_self] at hx
      rw [Function.update_of_ne hjk.symm]
      exact hl x (hsub hx) k hjk.symm
    · rw [Function.update_of_ne hj] at hx
      by_cases hk : k = i
      · subst hk
        rw [Function.update_self]
        exact fun hxs => hl x (hsub hxs) j hj hx
      · rw [Function.update_of_ne hk]
        exact hr.disjoint j k hjk x hx

private theorem Represents.off_cut (hr : Represents lists h σ) (hσ : σ i = pre ++ mid ++ suf)
    {x : P} (hx : x ∈ mid) : Off lists (Function.update σ i (pre ++ suf)) x := by
  have hperm := (lists i).nodes_perm pre mid suf
  have hi := hr.holds i
  rw [hσ] at hi
  intro j
  by_cases hj : j = i
  · subst hj
    rw [Function.update_self]
    have hnodup := hperm.nodup_iff.mp hi.nodup
    exact fun hmem => (List.nodup_append.mp hnodup).2.2 x hx x hmem rfl
  · rw [Function.update_of_ne hj]
    apply hr.disjoint i j (Ne.symm hj)
    rw [hσ]
    exact hperm.mem_iff.mpr (List.mem_append_left _ hx)

variable [DecidableEq P]

private theorem Represents.cut (hr : Represents lists h σ) (hσ : σ i = pre ++ mid ++ suf) :
    Represents lists (h.join (pre.getLastD (lists i).head) (suf.headD (lists i).tail))
      (Function.update σ i (pre ++ suf)) := by
  have hi := hr.holds i
  rw [hσ] at hi
  have hsub : (lists i).nodes (pre ++ suf) ⊆ (lists i).nodes (pre ++ mid ++ suf) := fun x hx =>
    ((lists i).nodes_perm pre mid suf).mem_iff.mpr (List.mem_append_right mid hx)
  apply hr.replace hi.cut (Links.sameOutside_join h (hsub ((lists i).getLastD_mem_nodes pre suf))
    (hsub ((lists i).headD_mem_nodes pre suf))) hsub
  intro x hx j hj
  rw [← hσ] at hx
  exact hr.disjoint i j (Ne.symm hj) x hx

private theorem Represents.paste (hr : Represents lists h σ) (hσ : σ i = pre ++ suf)
    (hmid : h.Chained mid) (hnodup : mid.Nodup) (hoff : ∀ x ∈ mid, Off lists σ x) {first last : P}
    (hfirst : mid.head? = some first) (hlast : mid.getLast? = some last) :
    Represents lists
      ((h.join (pre.getLastD (lists i).head) first).join last (suf.headD (lists i).tail))
      (Function.update σ i (pre ++ mid ++ suf)) := by
  have hi := hr.holds i
  rw [hσ] at hi
  have hperm := (lists i).nodes_perm pre mid suf
  have hall : ((lists i).nodes (pre ++ mid ++ suf)).Nodup := by
    rw [hperm.nodup_iff, List.nodup_append]
    refine ⟨hnodup, hi.nodup, ?_⟩
    rintro x hx _ hy rfl
    rw [← hσ] at hy
    exact hoff x hx i hy
  have hnew : ∀ x ∈ mid, x ∈ (lists i).nodes (pre ++ mid ++ suf) := fun x hx =>
    hperm.mem_iff.mpr (List.mem_append_left _ hx)
  have hold : ∀ x ∈ (lists i).nodes (pre ++ suf), x ∈ (lists i).nodes (pre ++ mid ++ suf) :=
    fun x hx => hperm.mem_iff.mpr (List.mem_append_right _ hx)
  apply hr.replace (hi.paste hmid hfirst hlast hall) _ (List.Subset.refl _)
  · intro x hx j hj
    rcases List.mem_append.mp (hperm.mem_iff.mp hx) with hx | hx
    · exact hoff x hx j
    · rw [← hσ] at hx
      exact hr.disjoint i j (Ne.symm hj) x hx
  · apply (Links.sameOutside_join h (hold _ ((lists i).getLastD_mem_nodes pre suf))
      (hnew _ (List.mem_of_head? hfirst))).trans
    exact Links.sameOutside_join _ (hnew _ (List.mem_of_getLast? hlast))
      (hold _ ((lists i).headD_mem_nodes pre suf))

/-! ## Insertion, removal and splicing -/

private theorem Represents.listInsert_spec (hr : Represents lists h σ) (hσ : σ i = pre ++ suf)
    {elem : P} (hoff : Off lists σ elem) :
    ∃ h', listInsert h (suf.headD (lists i).tail) elem = some h' ∧
      Represents lists h' (Function.update σ i (pre ++ elem :: suf)) := by
  have hi := hr.holds i
  have hnot := hoff i
  rw [hσ] at hi hnot
  have hprev := hi.joined_between.prev
  have hne : elem ≠ suf.headD (lists i).tail := fun heq =>
    hnot (heq ▸ (lists i).headD_mem_nodes pre suf)
  have hne' : pre.getLastD (lists i).head ≠ elem := fun heq =>
    hnot (heq ▸ (lists i).getLastD_mem_nodes pre suf)
  have hpaste := hr.paste hσ (List.isChain_singleton elem) (List.nodup_singleton elem)
    (by simpa using hoff) rfl rfl
  rw [List.append_assoc] at hpaste
  refine ⟨_, ?_, hpaste⟩
  have hread : (h.setPrev elem (some (pre.getLastD (lists i).head))).prev
      (suf.headD (lists i).tail) = some (pre.getLastD (lists i).head) :=
    (Function.update_of_ne hne.symm _ _).trans hprev
  unfold listInsert
  rw [hi.interior_or_tail]
  simp only [hprev, Option.bind_eq_bind, guard, if_true, pure, Option.bind_some,
    Links.prev_setNext, hread, Links.join_join_comm h hne']
  rfl

private theorem Represents.listRemove_spec (hr : Represents lists h σ) {elem : P}
    (hσ : σ i = pre ++ elem :: suf) :
    ∃ h', listRemove h elem = some (h', suf.headD (lists i).tail) ∧
      Represents lists h' (Function.update σ i (pre ++ suf)) := by
  have hi := hr.holds i
  rw [hσ] at hi
  obtain ⟨hleft, hright⟩ := hi.joined
  have hσ' : σ i = pre ++ [elem] ++ suf := by
    rw [hσ, List.append_assoc]
    rfl
  have hne : elem ≠ pre.getLastD (lists i).head := by
    have hi' := hr.holds i
    rw [hσ'] at hi'
    exact fun heq => hi'.around_not_mem.1 (heq ▸ List.mem_cons_self)
  refine ⟨_, ?_, hr.cut hσ'⟩
  have hread : (h.setNext (pre.getLastD (lists i).head) (some (suf.headD (lists i).tail))).next elem =
      some (suf.headD (lists i).tail) :=
    (Function.update_of_ne hne _ _).trans hright.next
  unfold listRemove
  rw [hi.isInterior_eq]
  simp only [hleft.prev, hright.next, Option.bind_eq_bind, guard, if_true, pure, Option.bind_some,
    Links.prev_setNext, Links.next_setPrev, hread]
  rfl

private theorem Represents.listSplice_spec (hr : Represents lists h σ)
    (hσ : σ i = pre ++ mid ++ suf)
    {j : ι} {pre' suf' : List P} (hτ : Function.update σ i (pre ++ suf) j = pre' ++ suf')
    {first : P} (hfirst : mid.head? = some first) :
    ∃ h', listSplice h (suf'.headD (lists j).tail) first (suf.headD (lists i).tail) = some h' ∧
      Represents lists h'
        (Function.update (Function.update σ i (pre ++ suf)) j (pre' ++ mid ++ suf')) := by
  have hi := hr.holds i
  rw [hσ] at hi
  obtain ⟨last, hlast⟩ : ∃ last, mid.getLast? = some last := by
    apply Option.isSome_iff_exists.mp
    rw [List.getLast?_isSome]
    rintro rfl
    cases hfirst
  have hcut := hr.cut hσ
  have hoff := fun x (hx : x ∈ mid) => hr.off_cut hσ hx
  have hj := hcut.holds j
  rw [hτ] at hj
  obtain ⟨h', hsplice, -, rfl⟩ := Holds.listSplice_spec hi hfirst hlast hj
    fun x hx hmem => hoff x hx j (hτ ▸ hmem)
  have hnodup := (((lists i).nodes_perm pre mid suf).nodup_iff.mp hi.nodup)
  exact ⟨_, hsplice, hcut.paste hτ hi.chained_cut (List.nodup_append.mp hnodup).1 hoff hfirst hlast⟩

/-! ## Reversal -/

/-- The links of some elements exchanged. -/
def flip (h : Links P) (l : List P) : Links P where
  prev p := if p ∈ l then h.next p else h.prev p
  next p := if p ∈ l then h.prev p else h.next p

private theorem Holds.listEmpty_eq {list : LinkedList P} {xs : List P} (hl : list.Holds h xs) :
    listEmpty h list = xs.isEmpty := by
  rw [listEmpty, hl.listBegin_eq]
  cases xs with
  | nil => exact decide_eq_true rfl
  | cons a xs =>
    have hne := (show list.Holds h ([] ++ a :: xs) from hl).ne_tail
    exact decide_eq_false fun heq => hne (Option.some.inj heq)

private theorem Holds.listFront_eq {list : LinkedList P} {a : P} (hl : list.Holds h (a :: suf)) :
    listFront h list = some a := by
  rw [listFront, hl.listEmpty_eq]
  exact hl.listBegin_eq

private theorem Holds.listBack_eq {list : LinkedList P} {a : P} (hl : list.Holds h (pre ++ [a])) :
    listBack h list = some a := by
  have hne : (pre ++ [a]).isEmpty = false := by simp
  rw [listBack, hl.listEmpty_eq, hne]
  exact hl.joined.2.prev

private theorem flip_concat {a : P} {l : List P} (ha : a ∉ l) :
    ((flip h l).setPrev a ((flip h l).next a)).setNext a ((flip h l).prev a) =
      flip h (l ++ [a]) := by
  unfold flip Links.setPrev Links.setNext
  simp only [if_neg ha, List.mem_append, List.mem_singleton]
  rw [Links.mk.injEq]
  constructor
  · ext1 p
    by_cases hp : p = a
    · subst hp
      simp
    · rw [Function.update_of_ne hp]
      simp only [hp, or_false]
  · ext1 p
    by_cases hp : p = a
    · subst hp
      simp
    · rw [Function.update_of_ne hp]
      simp only [hp, or_false]

private theorem Holds.reverseLoop_eq {list : LinkedList P} (hl : list.Holds h (pre ++ suf))
    {fuel : Nat} (hfuel : suf.length < fuel) :
    reverseLoop list fuel (flip h pre) (suf.headD list.tail) = some (flip h (pre ++ suf)) := by
  induction suf generalizing pre fuel with
  | nil =>
    obtain ⟨fuel, rfl⟩ := Nat.exists_eq_add_of_lt hfuel
    rw [List.append_nil]
    exact if_pos rfl
  | cons a suf ih =>
    cases fuel with
    | zero => exact absurd hfuel (Nat.not_lt_zero _)
    | succ fuel =>
      have hl' : list.Holds h ((pre ++ [a]) ++ suf) := by
        rw [List.append_assoc]
        exact hl
      have hnodup := (List.nodup_cons.mp hl.nodup).2
      rw [List.append_assoc] at hnodup
      have ha : a ∉ pre := fun hmem =>
        (List.nodup_append.mp hnodup).2.2 a hmem a List.mem_cons_self rfl
      have hne := hl.ne_tail
      have hprev : (flip h (pre ++ [a])).prev a = some (suf.headD list.tail) := by
        rw [← hl.joined.2.next]
        exact if_pos List.mem_concat_self
      rw [reverseLoop, List.headD_cons, listEnd, if_neg hne]
      simp only [flip_concat ha, hprev, Option.bind_eq_bind, Option.bind_some]
      rw [ih hl' (Nat.lt_of_succ_lt_succ hfuel), List.append_assoc]
      rfl

private theorem chained_flip {xs l : List P} (hl : h.Chained l) (hsub : l ⊆ xs) :
    (flip h xs).Chained l.reverse := by
  apply List.isChain_reverse.mpr
  apply List.IsChain.imp_of_mem_imp _ hl
  intro a b ha hb hab
  constructor
  · exact (if_pos (hsub hb)).trans hab.prev
  · exact (if_pos (hsub ha)).trans hab.next

private theorem Holds.listReverse_cons {list : LinkedList P} {a b : P} {xs : List P}
    (hl : list.Holds h xs) (ha : xs.head? = some a) (hb : xs.getLast? = some b) {rounds : Nat}
    (hrounds : xs.length < rounds) :
    listReverse rounds h list =
      some (((flip h xs).join list.head b).join a list.tail) := by
  obtain ⟨xs1, hxs1⟩ := List.head?_eq_some_iff.mp ha
  obtain ⟨xs2, hxs2⟩ := List.getLast?_eq_some_iff.mp hb
  have hla : list.Holds h ([] ++ a :: xs1) := hxs1 ▸ hl
  have hlb : list.Holds h (xs2 ++ b :: []) := hxs2 ▸ hl
  have hbegin : listBegin h list = some a := hla.joined.1.next
  have hloop := @Holds.reverseLoop_eq _ h [] xs _ _ hl rounds hrounds
  have hstart : xs.headD list.tail = a := by
    rw [hxs1]
    rfl
  rw [hstart] at hloop
  have haMem := List.mem_of_head? ha
  have hbMem := List.mem_of_getLast? hb
  have hnodup := hl.nodup
  simp only [List.nodup_cons, List.mem_append, List.mem_singleton, not_or] at hnodup
  obtain ⟨⟨hhead, hne⟩, hnodup⟩ := hnodup
  have htail : list.tail ∉ xs := fun hmem =>
    (List.nodup_append.mp hnodup).2.2 _ hmem _ List.mem_cons_self rfl
  have hbtail : b ≠ list.tail := fun heq => htail (heq ▸ hbMem)
  have hahead : a ≠ list.head := fun heq => hhead (heq ▸ haMem)
  have hempty : listEmpty h list = false := hla.listEmpty_eq
  -- the links that the two exchanges at the ends read
  have hnextHead : (flip h xs).next list.head = some a := (if_neg hhead).trans hbegin
  have hprevTail : (flip h xs).prev list.tail = some b := (if_neg htail).trans hlb.joined.2.prev
  have hnextA : (flip h xs).next a = some list.head := (if_pos haMem).trans hla.joined.1.prev
  have hprevB : (flip h xs).prev b = some list.tail := (if_pos hbMem).trans hlb.joined.2.next
  rw [listReverse, hempty, hbegin]
  simp only [Bool.false_eq_true, if_false, Option.bind_eq_bind, Option.bind_some]
  rw [show reverseLoop list rounds h a = some (flip h xs) from hloop]
  simp only [Option.bind_some, Links.setPrev, Links.setNext, hnextHead, hprevTail,
    Function.update_self, Function.update_of_ne hahead, Function.update_of_ne hbtail, hnextA,
    hprevB, Links.join, Function.update_comm hbtail]
  rfl

private theorem Holds.listReverse_spec {list : LinkedList P} {xs : List P} (hl : list.Holds h xs)
    {rounds : Nat} (hrounds : xs.length < rounds) :
    ∃ h', listReverse rounds h list = some h' ∧ list.Holds h' xs.reverse ∧
      Links.SameOutside (list.nodes xs) h h' := by
  by_cases hne : xs = []
  · subst hne
    exact ⟨h, if_pos hl.listEmpty_eq, hl, Links.SameOutside.refl _ h⟩
  · obtain ⟨a, ha⟩ : ∃ a, xs.head? = some a := ⟨_, List.head?_eq_some_head hne⟩
    obtain ⟨b, hb⟩ : ∃ b, xs.getLast? = some b := ⟨_, List.getLast?_eq_some_getLast hne⟩
    have haMem := List.mem_of_head? ha
    have hbMem := List.mem_of_getLast? hb
    have hnodup : (list.nodes xs.reverse).Nodup :=
      (((List.reverse_perm xs).append_right _).cons _).nodup_iff.mpr hl.nodup
    have hnodup' : ([list.head] ++ xs.reverse).Nodup :=
      hnodup.sublist ((List.sublist_append_left _ _).cons_cons _)
    obtain ⟨hhead, hrest⟩ := List.nodup_cons.mp hl.nodup
    rw [List.mem_append, not_or] at hhead
    have htail : list.tail ∉ xs := fun hmem =>
      (List.nodup_append.mp hrest).2.2 _ hmem _ List.mem_cons_self rfl
    have hxs : h.Chained xs := by
      have hsplit := (@Links.Holds.split _ _ _ _ [] xs hl).2
      exact (List.isChain_append.mp hsplit).1
    have hbridge : ((flip h xs).join list.head b).Chained ([list.head] ++ xs.reverse) :=
      Links.Chained.bridge (List.isChain_singleton _) (chained_flip hxs (List.Subset.refl xs)) rfl
        (List.head?_reverse.trans hb) hnodup'
    have hfirst : xs.reverse.getLastD list.head = a := by
      rw [List.getLastD_eq_getLast?, List.getLast?_reverse, ha]
      rfl
    refine ⟨_, hl.listReverse_cons ha hb hrounds, ?_, ?_⟩
    · have hholds := @Links.Holds.of_bridge _ _ _ _ list.tail xs.reverse [] hbridge
        (List.isChain_singleton _) (by rwa [List.append_nil])
      rw [List.append_nil, hfirst] at hholds
      apply hholds
      · have hbhead : list.head ≠ b := fun heq => hhead.1 (heq ▸ hbMem)
        rw [Links.prev_join_of_ne hbhead]
        exact (if_neg hhead.1).trans hl.prev_head
      · have hends : list.tail ≠ list.head := fun heq => hhead.2 (heq ▸ List.mem_cons_self)
        rw [Links.next_join_of_ne hends]
        exact (if_neg htail).trans hl.next_tail
    · have hsub : ∀ x ∈ xs, x ∈ list.nodes xs := fun x hx =>
        List.mem_cons_of_mem _ (List.mem_append_left _ hx)
      have hflip : Links.SameOutside (list.nodes xs) h (flip h xs) := fun p hp =>
        ⟨if_neg fun hmem => hp (hsub p hmem), if_neg fun hmem => hp (hsub p hmem)⟩
      apply (hflip.trans (Links.sameOutside_join _ List.mem_cons_self (hsub b hbMem))).trans
      exact Links.sameOutside_join _ (hsub a haMem)
        (List.mem_cons_of_mem _ List.mem_concat_self)

private theorem Represents.listReverse_spec (hr : Represents lists h σ) {rounds : Nat}
    (hrounds : (σ i).length < rounds) :
    ∃ h', listReverse rounds h (lists i) = some h' ∧
      Represents lists h' (Function.update σ i (σ i).reverse) := by
  obtain ⟨h', heq, hi, hout⟩ := (hr.holds i).listReverse_spec hrounds
  refine ⟨h', heq, hr.replace hi hout ?_ fun x hx j hj => hr.disjoint i j (Ne.symm hj) x hx⟩
  intro x hx
  simpa [nodes] using hx

/-! ## Ordered insertion and duplicates -/

variable {less : P → P → Bool}

private theorem Holds.insertOrderedLoop_spec {list : LinkedList P} {elem : P}
    (hl : list.Holds h (pre ++ suf)) {fuel : Nat} (hfuel : suf.length < fuel) :
    ∃ xs ys, insertOrderedLoop less h list elem fuel (suf.headD list.tail) =
        some (ys.headD list.tail) ∧ suf = xs ++ ys ∧
      Lib.listInsertOrdered less elem suf = xs ++ elem :: ys := by
  induction suf generalizing pre fuel with
  | nil =>
    obtain ⟨fuel, rfl⟩ := Nat.exists_eq_add_of_lt hfuel
    exact ⟨[], [], if_pos rfl, rfl, rfl⟩
  | cons e suf ih =>
    cases fuel with
    | zero => exact absurd hfuel (Nat.not_lt_zero _)
    | succ fuel =>
      rw [insertOrderedLoop, List.headD_cons, listEnd, if_neg hl.ne_tail, Lib.listInsertOrdered]
      by_cases hless : less elem e = true
      · rw [if_pos hless, if_pos hless]
        exact ⟨[], e :: suf, rfl, rfl, rfl⟩
      · have hl' : list.Holds h ((pre ++ [e]) ++ suf) := by
          rw [List.append_assoc]
          exact hl
        obtain ⟨xs, ys, hloop, hsuf, hins⟩ := ih hl' (Nat.lt_of_succ_lt_succ hfuel)
        rw [if_neg hless, if_neg hless, hl.listNext_eq, hins]
        exact ⟨e :: xs, ys, hloop, by rw [hsuf]; rfl, rfl⟩

private theorem Represents.listInsertOrdered_spec (hr : Represents lists h σ) {elem : P}
    (hoff : Off lists σ elem) {rounds : Nat} (hrounds : (σ i).length < rounds) :
    ∃ h', listInsertOrdered less rounds h (lists i) elem = some h' ∧
      Represents lists h' (Function.update σ i (Lib.listInsertOrdered less elem (σ i))) := by
  obtain ⟨xs, ys, hloop, hσ, hins⟩ := @Holds.insertOrderedLoop_spec _ h [] _ _ less _ elem
    (hr.holds i) _ hrounds
  rw [hins, listInsertOrdered, (hr.holds i).listBegin_eq]
  simp only [Option.bind_eq_bind, Option.bind_some, hloop]
  exact hr.listInsert_spec hσ hoff

/-- What `list_unique` keeps of an element and those after it, and what it takes out. -/
def uniqueFrom (less : P → P → Bool) (elem : P) : List P → List P × List P
  | [] => ([elem], [])
  | next :: l =>
    if !less elem next && !less next elem then
      ((uniqueFrom less elem l).1, next :: (uniqueFrom less elem l).2)
    else (elem :: (uniqueFrom less next l).1, (uniqueFrom less next l).2)

/-- What `list_unique` keeps of a sequence, and what it takes out. -/
def unique (less : P → P → Bool) : List P → List P × List P
  | [] => ([], [])
  | elem :: l => uniqueFrom less elem l

/-- A list gets another sequence, and the elements taken out of it go to the end of another list. -/
def replaceUnique (σ : ι → List P) (i : ι) (r : List P × List P) : Option ι → ι → List P
  | none => Function.update σ i r.1
  | some j => Function.update (Function.update σ i r.1) j (σ j ++ r.2)

/-- One round of the loop that takes out an element. -/
theorem Represents.moveDuplicate (hr : Represents lists h σ) {next : P}
    (hσ : σ i = pre ++ next :: suf) {duplicates : Option ι} (hne : duplicates ≠ some i) :
    ∃ h1 r h2, listRemove h next = some (h1, r) ∧
      pushDuplicate h1 next (duplicates.map lists) = some h2 ∧
      Represents lists h2 (replaceUnique σ i (pre ++ suf, [next]) duplicates) := by
  obtain ⟨h1, hremove, hr1⟩ := hr.listRemove_spec hσ
  have hσ' : σ i = pre ++ [next] ++ suf := by
    rw [hσ, List.append_assoc]
    rfl
  cases duplicates with
  | none => exact ⟨h1, _, h1, hremove, rfl, hr1⟩
  | some j =>
    have hj : j ≠ i := fun heq => hne (congrArg some heq)
    have hend : Function.update σ i (pre ++ suf) j = σ j ++ [] := by
      rw [Function.update_of_ne hj, List.append_nil]
    obtain ⟨h2, hpush, hr2⟩ := hr1.listInsert_spec hend (hr.off_cut hσ' List.mem_cons_self)
    exact ⟨h1, _, h2, hremove, hpush, hr2⟩

omit [DecidableEq P] in
private theorem replaceUnique_replaceUnique {xs ys ds es : List P} {duplicates : Option ι}
    (hne : duplicates ≠ some i) :
    replaceUnique (replaceUnique σ i (xs, ds) duplicates) i (ys, es) duplicates =
      replaceUnique σ i (ys, ds ++ es) duplicates := by
  cases duplicates with
  | none => exact Function.update_idem _ _ _
  | some j =>
    have hj : j ≠ i := fun heq => hne (congrArg some heq)
    simp only [replaceUnique, Function.update_self, List.append_assoc]
    rw [Function.update_comm hj.symm, Function.update_idem, Function.update_comm hj,
      Function.update_idem]

omit [DecidableEq P] in
private theorem replaceUnique_self {r : List P × List P} {duplicates : Option ι}
    (hne : duplicates ≠ some i) : replaceUnique σ i r duplicates i = r.1 := by
  cases duplicates with
  | none => exact Function.update_self _ _ _
  | some j =>
    rw [replaceUnique, Function.update_of_ne fun heq => hne (congrArg some heq.symm),
      Function.update_self]

omit [DecidableEq P] in
private theorem replaceUnique_of_eq {duplicates : Option ι} {xs : List P} (hσ : σ i = xs) :
    replaceUnique σ i (xs, []) duplicates = σ := by
  subst hσ
  cases duplicates with
  | none => exact Function.update_eq_self i σ
  | some j => simp [replaceUnique]

private theorem Represents.uniqueLoop_spec {elem : P} {l : List P} (hr : Represents lists h σ)
    (hσ : σ i = pre ++ elem :: l) {duplicates : Option ι} (hne : duplicates ≠ some i) {fuel : Nat}
    (hfuel : l.length < fuel) :
    ∃ h', uniqueLoop less (lists i) (duplicates.map lists) fuel h elem = some h' ∧
      Represents lists h' (replaceUnique σ i (pre ++ (uniqueFrom less elem l).1,
        (uniqueFrom less elem l).2) duplicates) := by
  induction fuel generalizing h σ pre elem l with
  | zero => exact absurd hfuel (Nat.not_lt_zero _)
  | succ fuel ih =>
    have hi := hr.holds i
    rw [hσ] at hi
    rw [uniqueLoop, hi.listNext_eq]
    cases l with
    | nil =>
      refine ⟨h, if_pos rfl, ?_⟩
      rw [uniqueFrom, replaceUnique_of_eq hσ]
      exact hr
    | cons next l =>
      have hlength := Nat.lt_of_succ_lt_succ hfuel
      have hσ' : σ i = (pre ++ [elem]) ++ next :: l := by
        rw [hσ, List.append_assoc]
        rfl
      have hnext : next ≠ (lists i).tail := (hσ' ▸ hr.holds i : (lists i).Holds h _).ne_tail
      rw [uniqueFrom]
      simp only [List.headD_cons, listEnd, Option.bind_eq_bind, Option.bind_some, if_neg hnext]
      split
      · -- an equivalent element is taken out, and the same one compared with the next
        obtain ⟨h1, r, h2, hremove, hpush, hr2⟩ := hr.moveDuplicate hσ' hne
        have hσ2 : replaceUnique σ i (pre ++ [elem] ++ l, [next]) duplicates i =
            pre ++ elem :: l := by
          rw [replaceUnique_self hne, List.append_assoc]
          rfl
        obtain ⟨h', hloop, hr'⟩ := ih hr2 hσ2 hlength
        rw [replaceUnique_replaceUnique hne] at hr'
        simp only [hremove, Option.bind_some, hpush]
        exact ⟨h', hloop, hr'⟩
      · obtain ⟨h', hloop, hr'⟩ := ih hr hσ' hlength
        rw [List.append_assoc] at hr'
        exact ⟨h', hloop, hr'⟩

private theorem Represents.listUnique_spec (hr : Represents lists h σ) {duplicates : Option ι}
    (hne : duplicates ≠ some i) {rounds : Nat} (hrounds : (σ i).length < rounds) :
    ∃ h', listUnique less rounds h (lists i) (duplicates.map lists) = some h' ∧
      Represents lists h' (replaceUnique σ i (unique less (σ i)) duplicates) := by
  have hempty := (hr.holds i).listEmpty_eq
  have hbegin := (hr.holds i).listBegin_eq
  cases hσ : σ i with
  | nil =>
    rw [hσ] at hempty
    refine ⟨h, if_pos hempty, ?_⟩
    rw [unique, replaceUnique_of_eq hσ]
    exact hr
  | cons elem l =>
    rw [hσ] at hempty hbegin hrounds
    rw [listUnique, hempty, hbegin]
    exact @Represents.uniqueLoop_spec _ _ _ _ _ _ i [] _ less elem l hr hσ _ hne _
      (Nat.lt_of_succ_lt hrounds)

end

/-! ## All calls -/

/-- The calls, with a list given by its index. -/
inductive Call (ι P : Type)
  | insert (before elem : P)
  | remove (elem : P)
  | splice (before first last : P)
  | pushFront (list : ι) (elem : P)
  | pushBack (list : ι) (elem : P)
  | popFront (list : ι)
  | popBack (list : ι)
  | insertOrdered (list : ι) (elem : P)
  | reverse (list : ι)
  | unique (list : ι) (duplicates : Option ι)

variable [DecidableEq P]

/-- The links after a call, and the element that it returns. -/
def perform (less : P → P → Bool) (lists : ι → LinkedList P) (rounds : Nat) (h : Links P) :
    Call ι P → Option (Links P × Option P)
  | .insert before elem => (listInsert h before elem).map (·, none)
  | .remove elem => (listRemove h elem).map fun r => (r.1, some r.2)
  | .splice before first last => (listSplice h before first last).map (·, none)
  | .pushFront i elem => (listPushFront h (lists i) elem).map (·, none)
  | .pushBack i elem => (listPushBack h (lists i) elem).map (·, none)
  | .popFront i => (listPopFront h (lists i)).map fun r => (r.1, some r.2)
  | .popBack i => (listPopBack h (lists i)).map fun r => (r.1, some r.2)
  | .insertOrdered i elem => (listInsertOrdered less rounds h (lists i) elem).map (·, none)
  | .reverse i => (listReverse rounds h (lists i)).map (·, none)
  | .unique i duplicates =>
    (listUnique less rounds h (lists i) (duplicates.map lists)).map (·, none)

variable [DecidableEq ι]

/-- What a call that may be made does to the sequences, and what it returns. An element to insert is
in no list yet, one to remove is in some list, and the range to splice lies in a list `i` and its
new place in what is then left in a list `j`. -/
inductive Effect (less : P → P → Bool) (lists : ι → LinkedList P) (σ : ι → List P) :
    Call ι P → (ι → List P) → Option P → Prop
  | insert {i pre suf elem} (hσ : σ i = pre ++ suf) (hoff : Off lists σ elem) :
    Effect less lists σ (.insert (suf.headD (lists i).tail) elem)
      (Function.update σ i (pre ++ elem :: suf)) none
  | remove {i pre suf elem} (hσ : σ i = pre ++ elem :: suf) :
    Effect less lists σ (.remove elem) (Function.update σ i (pre ++ suf))
      (some (suf.headD (lists i).tail))
  | splice {i j pre mid suf pre' suf' first} (hσ : σ i = pre ++ mid ++ suf)
    (hτ : Function.update σ i (pre ++ suf) j = pre' ++ suf') (hfirst : mid.head? = some first) :
    Effect less lists σ (.splice (suf'.headD (lists j).tail) first (suf.headD (lists i).tail))
      (Function.update (Function.update σ i (pre ++ suf)) j (pre' ++ mid ++ suf')) none
  | spliceNothing {j pre' suf'} (first : P) (hσ : σ j = pre' ++ suf') :
    Effect less lists σ (.splice (suf'.headD (lists j).tail) first first) σ none
  | pushFront {elem} (i : ι) (hoff : Off lists σ elem) :
    Effect less lists σ (.pushFront i elem) (Function.update σ i (elem :: σ i)) none
  | pushBack {elem} (i : ι) (hoff : Off lists σ elem) :
    Effect less lists σ (.pushBack i elem) (Function.update σ i (σ i ++ [elem])) none
  | popFront {i elem suf} (hσ : σ i = elem :: suf) :
    Effect less lists σ (.popFront i) (Function.update σ i suf) (some elem)
  | popBack {i elem pre} (hσ : σ i = pre ++ [elem]) :
    Effect less lists σ (.popBack i) (Function.update σ i pre) (some elem)
  | insertOrdered {elem} (i : ι) (hoff : Off lists σ elem) :
    Effect less lists σ (.insertOrdered i elem)
      (Function.update σ i ((σ i).orderedInsert (fun a b => less a b) elem)) none
  | reverse (i : ι) :
    Effect less lists σ (.reverse i) (Function.update σ i (σ i).reverse) none
  | unique (i : ι) {duplicates : Option ι} (hne : duplicates ≠ some i) :
    Effect less lists σ (.unique i duplicates) (replaceUnique σ i (unique less (σ i)) duplicates)
      none

/-- Every call that may be made returns, after fewer rounds of its loop than some bound, and leaves
lists that hold what the call makes of the sequences. -/
theorem list_calls_refine_sequences {less : P → P → Bool} {lists : ι → LinkedList P} {h : Links P}
    {σ σ' : ι → List P} {call : Call ι P} {r : Option P} (hr : Represents lists h σ)
    (heffect : Effect less lists σ call σ' r) :
    ∃ bound, ∀ rounds, bound < rounds → ∃ h', perform less lists rounds h call = some (h', r) ∧
      Represents lists h' σ' := by
  cases heffect with
  | insert hσ hoff =>
    obtain ⟨h', heq, hr'⟩ := hr.listInsert_spec hσ hoff
    exact ⟨0, fun _ _ => ⟨h', by rw [perform, heq]; rfl, hr'⟩⟩
  | remove hσ =>
    obtain ⟨h', heq, hr'⟩ := hr.listRemove_spec hσ
    exact ⟨0, fun _ _ => ⟨h', by rw [perform, heq]; rfl, hr'⟩⟩
  | splice hσ hτ hfirst =>
    obtain ⟨h', heq, hr'⟩ := hr.listSplice_spec hσ hτ hfirst
    exact ⟨0, fun _ _ => ⟨h', by rw [perform, heq]; rfl, hr'⟩⟩
  | @spliceNothing j _ _ first hσ =>
    have hj := hr.holds j
    rw [hσ] at hj
    refine ⟨0, fun _ _ => ⟨h, ?_, hr⟩⟩
    rw [perform, listSplice, hj.interior_or_tail, if_pos rfl]
    rfl
  | pushFront i hoff =>
    obtain ⟨h', heq, hr'⟩ := hr.listInsert_spec (List.nil_append (σ i)).symm hoff
    refine ⟨0, fun _ _ => ⟨h', ?_, hr'⟩⟩
    rw [perform, listPushFront, (hr.holds i).listBegin_eq]
    exact congrArg (Option.map _) heq
  | pushBack i hoff =>
    obtain ⟨h', heq, hr'⟩ := hr.listInsert_spec (List.append_nil (σ i)).symm hoff
    exact ⟨0, fun _ _ => ⟨h', congrArg (Option.map _) heq, hr'⟩⟩
  | @popFront i elem suf hσ =>
    have hi := hr.holds i
    rw [hσ] at hi
    obtain ⟨h', heq, hr'⟩ := hr.listRemove_spec (hσ.trans (List.nil_append _).symm)
    refine ⟨0, fun _ _ => ⟨h', ?_, hr'⟩⟩
    rw [perform, listPopFront, hi.listFront_eq]
    simp [heq]
  | @popBack i elem pre hσ =>
    have hi := hr.holds i
    rw [hσ] at hi
    obtain ⟨h', heq, hr'⟩ := hr.listRemove_spec hσ
    rw [List.append_nil] at hr'
    refine ⟨0, fun _ _ => ⟨h', ?_, hr'⟩⟩
    rw [perform, listPopBack, hi.listBack_eq]
    simp [heq]
  | insertOrdered i hoff =>
    refine ⟨(σ i).length, fun rounds hrounds => ?_⟩
    obtain ⟨h', heq, hr'⟩ := @Represents.listInsertOrdered_spec _ _ _ _ _ _ i _ less hr _ hoff _
      hrounds
    rw [listInsertOrdered_eq] at hr'
    exact ⟨h', by rw [perform, heq]; rfl, hr'⟩
  | reverse i =>
    refine ⟨(σ i).length, fun rounds hrounds => ?_⟩
    obtain ⟨h', heq, hr'⟩ := @Represents.listReverse_spec _ _ _ _ _ _ i _ hr _ hrounds
    exact ⟨h', by rw [perform, heq]; rfl, hr'⟩
  | unique i hne =>
    refine ⟨(σ i).length, fun rounds hrounds => ?_⟩
    obtain ⟨h', heq, hr'⟩ := @Represents.listUnique_spec _ _ _ _ _ _ i _ less hr _ hne _ hrounds
    exact ⟨h', by rw [perform, heq]; rfl, hr'⟩

/-- Two lists, with the headers 0 and 1, and 2 and 3. -/
def twoLists : Bool → LinkedList Nat
  | false => ⟨0, 1⟩
  | true => ⟨2, 3⟩

/-- The first of them has the elements 4, 5 and 6, the second 7 and 8. -/
def sampleLinks : Links Nat where
  prev p := [(4, 0), (5, 4), (6, 5), (1, 6), (7, 2), (8, 7), (3, 8)].lookup p
  next p := [(0, 4), (4, 5), (5, 6), (6, 1), (2, 7), (7, 8), (8, 3)].lookup p

def sampleLists : Bool → List Nat
  | false => [4, 5, 6]
  | true => [7, 8]

private theorem represents_sampleLinks : Represents twoLists sampleLinks sampleLists where
  holds i := by
    cases i with
    | false | true =>
      refine ⟨rfl, rfl, ?_, by decide⟩
      simp only [Links.Chained, twoLists, sampleLists, List.cons_append, List.nil_append,
        List.isChain_cons_cons, List.IsChain.singleton, and_true]
      repeat' constructor
  disjoint := by decide

/-- The last two elements of the first list move into the second; and where elements count as
equal if their halves are, 5 is the duplicate of 4. -/
theorem list_calls_refine_sequences_splice :
    ∃ bound, ∀ rounds, bound < rounds →
      (∃ h' σ, perform (fun a b => decide (a / 2 < b / 2)) twoLists rounds sampleLinks
          (.splice 8 5 1) = some (h', none) ∧
        Represents twoLists h' σ ∧ σ false = [4] ∧ σ true = [7, 5, 6, 8]) ∧
      ∃ h' σ, perform (fun a b => decide (a / 2 < b / 2)) twoLists rounds sampleLinks
          (.unique false (some true)) = some (h', none) ∧
        Represents twoLists h' σ ∧ σ false = [4, 6] ∧ σ true = [7, 8, 5] := by
  let less : Nat → Nat → Bool := fun a b => decide (a / 2 < b / 2)
  have hsplice : Effect less twoLists sampleLists (.splice 8 5 1) _ none :=
    .splice (show sampleLists false = [4] ++ [5, 6] ++ [] from rfl)
      (show Function.update sampleLists false [4] true = [7] ++ [8] from rfl)
      (show [5, 6].head? = some 5 from rfl)
  obtain ⟨m, hm⟩ := list_calls_refine_sequences represents_sampleLinks hsplice
  have hunique : Effect less twoLists sampleLists (.unique false (some true)) _ none :=
    .unique false (by decide)
  obtain ⟨n, hn⟩ := list_calls_refine_sequences represents_sampleLinks hunique
  refine ⟨max m n, fun rounds hrounds => ?_⟩
  obtain ⟨h1, hp1, hr1⟩ := hm rounds (by omega)
  obtain ⟨h2, hp2, hr2⟩ := hn rounds (by omega)
  exact ⟨⟨h1, _, hp1, hr1, rfl, rfl⟩, h2, _, hp2, hr2, by decide, by decide⟩

end LinkedList

end Pintos.Lib

import Pintos.Base.BinaryHeap
import Pintos.Lib.Bytes

/-!
# Heap sort and binary search

`sort` and `binary_search` on an array in memory. Indexes and addresses are 32-bit words; an access
to anything but an element of the array, and a loop that exceeds its bound of rounds, have no
result.
Source `lib/stdlib.c:64–207`.
-/

namespace Pintos.Lib.Sort

open Pintos.Base.BinaryHeap

/-- The content of an element of `size` bytes. -/
abbrev Element (size : Nat) := { bytes : List UInt8 // bytes.length = size }

/-- An array of elements of `size` bytes. An object of C takes at most `PTRDIFF_MAX` bytes, and the
address after it is an address. -/
structure ArrayObject (size : Nat) where
  base : Nat
  cnt : Nat
  size_pos : 0 < size
  nonnull : cnt ≠ 0 → base ≠ 0
  fits : cnt * size < 2 ^ 31
  end_lt : base + cnt * size < 2 ^ 32

/-- A comparison function: negative, zero or positive results say that the first argument is less
than, equivalent to or greater than the second one. -/
structure TotalPreorder {α : Type} (compare : α → α → Int) : Prop where
  neg_iff : ∀ a b, compare a b < 0 ↔ 0 < compare b a
  trans : ∀ a b c, compare a b ≤ 0 → compare b c ≤ 0 → compare a c ≤ 0

section Model

variable {size : Nat} (o : ArrayObject size) (compare : Element size → Element size → Int)

/-- An element of the array begins at the address. -/
def IsElement (p : Nat) : Prop :=
  o.base ≤ p ∧ p + size ≤ o.base + o.cnt * size ∧ (p - o.base) % size = 0

instance (p : Nat) : Decidable (IsElement o p) := inferInstanceAs (Decidable (_ ∧ _ ∧ _))

/-- The bytes from an address on. -/
def bytesAt (size : Nat) (m : Bytes) (p : Nat) : Element size :=
  ⟨(List.range size).map fun j => m (p + j), by rw [List.length_map, List.length_range]⟩

/-- The content of the element at an address. -/
def load (m : Bytes) (p : Nat) : Option (Element size) :=
  if IsElement o p then some (bytesAt size m p) else none

/-- `array + (idx - 1) * size`. -/
def elementPtr (idx : Nat) : Nat := (o.base + (idx + 2 ^ 32 - 1) % 2 ^ 32 * size) % 2 ^ 32

/-- The exchange of two bytes, `lib/stdlib.c:75–77`. -/
def swapByte (m : Bytes) (p q : Nat) : Bytes :=
  Function.update (Function.update m p (m q)) q (m p)

/-- The loop of `do_swap`. -/
def swapBytes (m : Bytes) (a b n : Nat) : Bytes :=
  (List.range n).foldl (fun m i => swapByte m (a + i) (b + i)) m

/-- `do_swap`, `lib/stdlib.c:66–79`. -/
def doSwap (m : Bytes) (aIdx bIdx : Nat) : Option Bytes :=
  let a := elementPtr o aIdx
  let b := elementPtr o bIdx
  if IsElement o a ∧ IsElement o b then some (swapBytes m a b size) else none

/-- `do_compare`, `lib/stdlib.c:85–91`. -/
def doCompare (m : Bytes) (aIdx bIdx : Nat) : Option Int :=
  (load o m (elementPtr o aIdx)).bind fun a =>
    (load o m (elementPtr o bIdx)).map fun b => compare a b

/-- `if (child <= cnt && do_compare (array, child, max, …) > 0) max = child`. -/
def larger (m : Bytes) (cnt child max : Nat) : Option Nat :=
  if child ≤ cnt then
    (doCompare o compare m child max).map fun c => if 0 < c then child else max
  else some max

/-- The index of the largest element among `i` and its children, `lib/stdlib.c:103–112`. -/
def largest (m : Bytes) (i cnt : Nat) : Option Nat :=
  let left := 2 * i % 2 ^ 32
  let right := (2 * i + 1) % 2 ^ 32
  (larger o compare m cnt left i).bind fun max => larger o compare m cnt right max

/-- `heapify`, `lib/stdlib.c:96–122`. -/
def heapify : Nat → Bytes → Nat → Nat → Option Bytes
  | 0, _, _, _ => none
  | rounds + 1, m, i, cnt =>
    (largest o compare m i cnt).bind fun max =>
      if max = i then some m
      else (doSwap o m i max).bind fun m => heapify rounds m max cnt

/-- `for (i = cnt / 2; i > 0; i--) heapify (array, i, cnt, …)`. -/
def buildLoop (rounds : Nat) (m : Bytes) : Nat → Option Bytes
  | 0 => some m
  | i + 1 => (heapify o compare rounds m (i + 1) o.cnt).bind fun m => buildLoop rounds m i

/-- `for (i = cnt; i > 1; i--)` of `sort`, `lib/stdlib.c:147–151`. -/
def sortLoop (rounds : Nat) (m : Bytes) : Nat → Option Bytes
  | 0 => some m
  | 1 => some m
  | i + 2 =>
    (doSwap o m 1 (i + 2)).bind fun m =>
      (heapify o compare rounds m 1 (i + 1)).bind fun m => sortLoop rounds m (i + 1)

/-- `sort`, `lib/stdlib.c:130–152`. -/
def sort (rounds : Nat) (m : Bytes) : Option Bytes :=
  if (o.base ≠ 0 ∨ o.cnt = 0) ∧ 0 < size then
    (buildLoop o compare rounds m (o.cnt / 2)).bind fun m => sortLoop o compare rounds m o.cnt
  else none

/-- The loop of `binary_search`, `lib/stdlib.c:192–205`. -/
def searchLoop (key : Element size) (m : Bytes) : Nat → Nat → Nat → Option (Option Nat)
  | 0, _, _ => none
  | rounds + 1, first, last =>
    if first < last then
      let range := (last - first) / size
      let middle := (first + range / 2 * size) % 2 ^ 32
      (load o m middle).bind fun e =>
        let cmp := compare key e
        if cmp < 0 then searchLoop key m rounds first middle
        else if 0 < cmp then searchLoop key m rounds ((middle + size) % 2 ^ 32) last
        else some (some middle)
    else some none

/-- `binary_search`, `lib/stdlib.c:184–207`: the address that it returns, none for a null
pointer. -/
def binarySearch (key : Element size) (m : Bytes) (rounds : Nat) : Option (Option Nat) :=
  searchLoop o compare key m rounds o.base ((o.base + size * o.cnt) % 2 ^ 32)

/-- The element with a 1-based index. -/
def item (m : Bytes) (k : Nat) : Element size := bytesAt size m (o.base + (k - 1) * size)

/-- The elements of the array. -/
def elements (m : Bytes) : List (Element size) := (List.range' 1 o.cnt).map (item o m)

/-- The memory outside the array is the same. -/
def SameOutside (m m' : Bytes) : Prop :=
  ∀ p, p < o.base ∨ o.base + o.cnt * size ≤ p → m' p = m p

end Model

/-! ## Elements -/

section Elements

variable {size : Nat} {o : ArrayObject size} {m m' m'' : Bytes} {k : Nat}

private theorem SameOutside.refl (o : ArrayObject size) (m : Bytes) :
    SameOutside o m m := fun _ _ => rfl

private theorem SameOutside.trans (h : SameOutside o m m') (h' : SameOutside o m' m'') :
    SameOutside o m m'' := fun p hp => (h' p hp).trans (h p hp)

private theorem index_mul_le (hpos : 0 < k) (hk : k ≤ o.cnt) :
    (k - 1) * size + size ≤ o.cnt * size := by
  have hle : (k - 1 + 1) * size ≤ o.cnt * size := Nat.mul_le_mul_right size (by omega)
  rw [Nat.succ_mul] at hle
  exact hle

private theorem cnt_lt (o : ArrayObject size) : o.cnt < 2 ^ 31 := by
  have hle : o.cnt * 1 ≤ o.cnt * size := Nat.mul_le_mul_left o.cnt o.size_pos
  have hfits := o.fits
  omega

private theorem isElement_index (hpos : 0 < k) (hk : k ≤ o.cnt) :
    IsElement o (o.base + (k - 1) * size) := by
  have hle := index_mul_le hpos hk
  refine ⟨Nat.le_add_right _ _, by omega, ?_⟩
  rw [Nat.add_sub_cancel_left]
  exact Nat.mul_mod_left _ _

private theorem elementPtr_eq (hpos : 0 < k) (hk : k ≤ o.cnt) :
    elementPtr o k = o.base + (k - 1) * size := by
  have hle := index_mul_le hpos hk
  have hcnt := cnt_lt o
  have hend := o.end_lt
  have hpred : (k + 2 ^ 32 - 1) % 2 ^ 32 = k - 1 := by omega
  unfold elementPtr
  rw [hpred]
  exact Nat.mod_eq_of_lt (by omega)

private theorem load_index (hpos : 0 < k) (hk : k ≤ o.cnt) :
    load o m (o.base + (k - 1) * size) = some (item o m k) :=
  if_pos (isElement_index hpos hk)

private theorem doCompare_eq {compare : Element size → Element size → Int} {l : Nat} (hpos : 0 < k)
    (hk : k ≤ o.cnt) (hlpos : 0 < l) (hl : l ≤ o.cnt) :
    doCompare o compare m k l = some (compare (item o m k) (item o m l)) := by
  unfold doCompare
  rw [elementPtr_eq hpos hk, elementPtr_eq hlpos hl, load_index hpos hk, load_index hlpos hl]
  rfl

private theorem index_disjoint {l : Nat} (hpos : 0 < k) (hlt : k < l) :
    (k - 1) * size + size ≤ (l - 1) * size := by
  have hle : (k - 1 + 1) * size ≤ (l - 1) * size := Nat.mul_le_mul_right size (by omega)
  rw [Nat.succ_mul] at hle
  exact hle

end Elements

/-! ## Exchanges -/

section Swap

variable {size : Nat} {o : ArrayObject size} {m : Bytes} {a b n : Nat}

private theorem swapBytes_succ (m : Bytes) (a b n : Nat) :
    swapBytes m a b (n + 1) = swapByte (swapBytes m a b n) (a + n) (b + n) := by
  unfold swapBytes
  rw [List.range_succ, List.foldl_append]
  rfl

private theorem swapBytes_other {p : Nat} (ha : p < a ∨ a + n ≤ p) (hb : p < b ∨ b + n ≤ p) :
    swapBytes m a b n p = m p := by
  induction n with
  | zero => rfl
  | succ n ih =>
    rw [swapBytes_succ, swapByte, Function.update_of_ne (by omega),
      Function.update_of_ne (by omega)]
    exact ih (by omega) (by omega)

private theorem swapBytes_pair {j : Nat} (hdisj : a + n ≤ b ∨ b + n ≤ a) (hj : j < n) :
    swapBytes m a b n (a + j) = m (b + j) ∧ swapBytes m a b n (b + j) = m (a + j) := by
  induction n with
  | zero => exact absurd hj (Nat.not_lt_zero j)
  | succ n ih =>
    rw [swapBytes_succ, swapByte, Function.update_of_ne (show a + j ≠ b + n by omega)]
    by_cases hjn : j = n
    · rw [hjn, Function.update_self, Function.update_self]
      exact ⟨swapBytes_other (by omega) (by omega), swapBytes_other (by omega) (by omega)⟩
    · rw [Function.update_of_ne (by omega), Function.update_of_ne (by omega),
        Function.update_of_ne (by omega)]
      exact ih (by omega) (by omega)

private theorem doSwap_spec {k l : Nat} (hk : 0 < k) (hkn : k ≤ o.cnt) (hl : 0 < l)
    (hln : l ≤ o.cnt) (hne : k ≠ l) :
    ∃ m', doSwap o m k l = some m' ∧
      (∀ i, 0 < i → item o m' i = exchange (item o m) k l i) ∧ SameOutside o m m' := by
  have hke := index_mul_le hk hkn
  have hle := index_mul_le hl hln
  have hdisj : ∀ {i j}, 0 < i → 0 < j → i ≠ j →
      o.base + (i - 1) * size + size ≤ o.base + (j - 1) * size ∨
        o.base + (j - 1) * size + size ≤ o.base + (i - 1) * size := by
    intro i j hi hj hij
    rcases Nat.lt_or_gt_of_ne hij with hlt | hlt
    · have h := @index_disjoint size i j hi hlt
      omega
    · have h := @index_disjoint size j i hj hlt
      omega
  unfold doSwap
  rw [elementPtr_eq hk hkn, elementPtr_eq hl hln]
  refine ⟨_, if_pos ⟨isElement_index hk hkn, isElement_index hl hln⟩, fun i hi => ?_,
    fun p hp => swapBytes_other (by omega) (by omega)⟩
  refine Subtype.ext (?_ : (List.range size).map _ = (exchange (item o m) k l i).1)
  by_cases hik : i = k
  · rw [hik, exchange_left]
    refine List.map_congr_left fun j hj => ?_
    exact (swapBytes_pair (hdisj hk hl hne) (List.mem_range.mp hj)).1
  by_cases hil : i = l
  · rw [hil, exchange_right]
    refine List.map_congr_left fun j hj => ?_
    exact (swapBytes_pair (hdisj hk hl hne) (List.mem_range.mp hj)).2
  · rw [exchange_of_ne _ hik hil]
    refine List.map_congr_left fun j hj => ?_
    have hj := List.mem_range.mp hj
    have hki := hdisj hi hk hik
    have hli := hdisj hi hl hil
    exact swapBytes_other (by omega) (by omega)

end Swap

/-! ## Heap sort -/

section HeapSort

variable {size : Nat} {o : ArrayObject size} {compare : Element size → Element size → Int}
  {m : Bytes} {i n lo rounds : Nat}

/-- The order of the comparison function. -/
def Le (compare : Element size → Element size → Int) (a b : Element size) : Prop := compare a b ≤ 0

private theorem TotalPreorder.le_refl (hc : TotalPreorder compare) (a : Element size) :
    Le compare a a := by
  have hiff := hc.neg_iff a a
  unfold Le
  omega

private theorem TotalPreorder.le_of_pos (hc : TotalPreorder compare) {a b : Element size}
    (h : 0 < compare a b) : Le compare b a := by
  have hlt := (hc.neg_iff b a).mpr h
  unfold Le
  omega

private theorem larger_spec (hc : TotalPreorder compare) {child max : Nat} (hn : n ≤ o.cnt)
    (hchild : 0 < child) (hmax : 0 < max) (hmaxn : max ≤ n) :
    ∃ max', larger o compare m n child max = some max' ∧
      (max' = max ∨ max' = child ∧ child ≤ n) ∧
      Le compare (item o m max) (item o m max') ∧
      (child ≤ n → Le compare (item o m child) (item o m max')) := by
  unfold larger
  by_cases hle : child ≤ n
  · rw [if_pos hle, doCompare_eq hchild (by omega) hmax (by omega), Option.map_some]
    by_cases hpos : 0 < compare (item o m child) (item o m max)
    · exact ⟨child, by rw [if_pos hpos], Or.inr ⟨rfl, hle⟩, hc.le_of_pos hpos,
        fun _ => hc.le_refl _⟩
    · exact ⟨max, by rw [if_neg hpos], Or.inl rfl, hc.le_refl _, fun _ => Int.not_lt.mp hpos⟩
  · exact ⟨max, if_neg hle, Or.inl rfl, hc.le_refl _, fun h => absurd h hle⟩

/-- The element itself or a child is chosen, and it is not less than any of them. -/
theorem largest_spec (hc : TotalPreorder compare) (hn : n ≤ o.cnt) (hi : 0 < i) (hin : i ≤ n) :
    ∃ max, largest o compare m i n = some max ∧ (max = i ∨ max / 2 = i ∧ max ≤ n) ∧
      Le compare (item o m i) (item o m max) ∧
      ∀ c ≤ n, c / 2 = i → Le compare (item o m c) (item o m max) := by
  have hcnt := cnt_lt o
  have hleft : 2 * i % 2 ^ 32 = 2 * i := Nat.mod_eq_of_lt (by omega)
  have hright : (2 * i + 1) % 2 ^ 32 = 2 * i + 1 := Nat.mod_eq_of_lt (by omega)
  unfold largest
  dsimp only
  rw [hleft, hright]
  obtain ⟨max, hmax, hwhich, hle, hle'⟩ :=
    @larger_spec size o compare m n hc (2 * i) i hn (by omega) hi hin
  obtain ⟨max', hmax', hwhich', hge, hge'⟩ :=
    @larger_spec size o compare m n hc (2 * i + 1) max hn (by omega) (by omega) (by omega)
  refine ⟨max', ?_, by omega, hc.trans _ _ _ hle hge, fun c hcn hc2 => ?_⟩
  · rw [hmax]
    exact hmax'
  · rcases (by omega : c = 2 * i ∨ c = 2 * i + 1) with rfl | rfl
    · exact hc.trans _ _ _ (hle' hcn) hge
    · exact hge' hcn

/-- What is left after an operation on the first `n` elements: they have been rearranged into a heap
from `lo` on, and nothing else has changed. -/
structure Heapified (o : ArrayObject size) (compare : Element size → Element size → Int)
    (lo n : Nat) (m m' : Bytes) : Prop where
  ordered : Ordered (Le compare) (item o m') lo n
  rearranged : Rearranged n (item o m) (item o m')
  outside : SameOutside o m m'

private theorem heapify_spec (hc : TotalPreorder compare) (hn : n ≤ o.cnt) (hlo : 0 < lo)
    (hi : 0 < i)
    (hin : i ≤ n) (hrounds : n < i + rounds) (h : Sinking (Le compare) (item o m) lo i n) :
    ∃ m', heapify o compare rounds m i n = some m' ∧ Heapified o compare lo n m m' := by
  induction rounds generalizing m i with
  | zero => omega
  | succ rounds ih =>
    obtain ⟨max, hmax, hwhich, hle, hge⟩ := @largest_spec size o compare m i n hc hn hi hin
    rw [heapify, hmax, Option.bind_some]
    by_cases heq : max = i
    · refine ⟨m, if_pos heq, h.arrived ?_, Rearranged.refl _ _, SameOutside.refl _ _⟩
      rw [heq] at hge
      exact hge
    have hchild : max / 2 = i ∧ max ≤ n := hwhich.resolve_left heq
    obtain ⟨m1, hswap, hitem, hout⟩ :=
      @doSwap_spec size o m i max hi (by omega) (by omega) (by omega) (Ne.symm heq)
    have hsink : Sinking (Le compare) (item o m1) lo max n :=
      (h.exchange hi hchild.1 hchild.2 hle hge).congr hlo hitem
    obtain ⟨m', hm', hheap⟩ := ih (by omega) hchild.2 (by omega) hsink
    refine ⟨m', ?_, hheap.ordered, ?_, hout.trans hheap.outside⟩
    · rw [if_neg heq, hswap]
      exact hm'
    · exact (rearranged_exchange hi hin (by omega) hchild.2 hitem).trans hheap.rearranged

/-- The first loop makes a heap of the array, from its middle down. -/
theorem buildLoop_spec (hc : TotalPreorder compare) (hi : i ≤ o.cnt / 2) (hrounds : o.cnt < rounds)
    (h : Ordered (Le compare) (item o m) (i + 1) o.cnt) :
    ∃ m', buildLoop o compare rounds m i = some m' ∧ Heapified o compare 1 o.cnt m m' := by
  induction i generalizing m with
  | zero => exact ⟨m, rfl, h, Rearranged.refl _ _, SameOutside.refl _ _⟩
  | succ i ih =>
    obtain ⟨m1, hm1, h1⟩ := @heapify_spec size o compare m (i + 1) o.cnt (i + 1) rounds hc
      (Nat.le_refl _) (Nat.succ_pos i) (Nat.succ_pos i) (by omega) (by omega)
      (h.sinking (Nat.succ_pos i))
    obtain ⟨m', hm', h'⟩ := ih (by omega) h1.ordered
    refine ⟨m', ?_, h'.ordered, h1.rearranged.trans h'.rearranged, h1.outside.trans h'.outside⟩
    rw [buildLoop, hm1]
    exact hm'

private theorem sortLoop_spec (hc : TotalPreorder compare) (hi : i ≤ o.cnt)
    (hrounds : o.cnt < rounds) (h : Sorting (Le compare) (item o m) i o.cnt) :
    ∃ m', sortLoop o compare rounds m i = some m' ∧
      (elements o m').Pairwise (Le compare) ∧ Rearranged o.cnt (item o m) (item o m') ∧
      SameOutside o m m' := by
  induction i using Nat.strongRecOn generalizing m with
  | ind i ih =>
    rcases Nat.lt_or_ge 1 i with hlt | hge
    · obtain ⟨i, rfl⟩ : ∃ j, i = j + 2 := ⟨i - 2, by omega⟩
      obtain ⟨m1, hswap, hitem, hout⟩ :=
        @doSwap_spec size o m 1 (i + 2) Nat.one_pos (by omega) (by omega) hi (by omega)
      obtain ⟨m2, hm2, h2⟩ := @heapify_spec size o compare m1 1 (i + 1) 1 rounds hc (by omega)
        Nat.one_pos Nat.one_pos (by omega) (by omega) (h.sinking.congr Nat.one_pos hitem)
      have hr1 : Rearranged o.cnt (item o m) (item o m1) :=
        rearranged_exchange Nat.one_pos (by omega) (by omega) hi hitem
      have hnext : Sorting (Le compare) (item o m2) (i + 1) o.cnt :=
        h.next hc.le_refl hc.trans (h2.rearranged.congr_left hitem) h2.ordered
      obtain ⟨m', hm', hsorted, hr', hout'⟩ := ih (i + 1) (by omega) (by omega) hnext
      refine ⟨m', ?_, hsorted, ?_, (hout.trans h2.outside).trans hout'⟩
      · rw [sortLoop, hswap, Option.bind_some, hm2]
        exact hm'
      · exact (hr1.trans (h2.rearranged.mono (by omega))).trans hr'
    · refine ⟨m, ?_, h.pairwise hge, Rearranged.refl _ _, SameOutside.refl _ _⟩
      rcases (by omega : i = 0 ∨ i = 1) with rfl | rfl <;> rfl

private theorem sort_spec (hc : TotalPreorder compare) (hrounds : o.cnt < rounds) :
    ∃ m', sort o compare rounds m = some m' ∧ (elements o m').Perm (elements o m) ∧
      (elements o m').Pairwise (fun a b => compare a b ≤ 0) ∧ SameOutside o m m' := by
  have hasserts : (o.base ≠ 0 ∨ o.cnt = 0) ∧ 0 < size := by
    have hnonnull := o.nonnull
    exact ⟨by omega, o.size_pos⟩
  -- the elements of the second half have no children
  have hleaves : Ordered (Le compare) (item o m) (o.cnt / 2 + 1) o.cnt := by
    intro c hcn hlo
    omega
  obtain ⟨m1, hm1, h1⟩ := buildLoop_spec hc (Nat.le_refl _) hrounds hleaves
  obtain ⟨m', hm', hsorted, hr, hout⟩ :=
    sortLoop_spec hc (Nat.le_refl _) hrounds h1.ordered.sorting
  refine ⟨m', ?_, (h1.rearranged.trans hr).perm, hsorted, h1.outside.trans hout⟩
  unfold sort
  rw [if_pos hasserts, hm1]
  exact hm'

end HeapSort

/-! ## Binary search -/

section Search

variable {size : Nat} {o : ArrayObject size} {compare : Element size → Element size → Int}
  {m : Bytes} {key : Element size}

/-- The elements from `hi` on are greater than the key, those before `lo` less. -/
structure Narrowed (o : ArrayObject size) (compare : Element size → Element size → Int) (m : Bytes)
    (key : Element size) (lo hi : Nat) : Prop where
  below : ∀ k, 0 < k → k ≤ lo → 0 < compare key (item o m k)
  above : ∀ k, hi < k → k ≤ o.cnt → compare key (item o m k) < 0

private theorem le_of_sorted (h : (elements o m).Pairwise (fun a b => compare a b ≤ 0)) {j k : Nat}
    (hj : 0 < j) (hjk : j < k) (hk : k ≤ o.cnt) : compare (item o m j) (item o m k) ≤ 0 := by
  have hget := List.pairwise_iff_getElem.mp h (j - 1) (k - 1) (by simp [elements]; omega)
    (by simp [elements]; omega) (by omega)
  simp only [elements, List.getElem_map, List.getElem_range', Nat.one_mul] at hget
  rw [Nat.add_sub_cancel' hj, Nat.add_sub_cancel' (by omega)] at hget
  exact hget

/-- After a comparison with an element that is greater, the elements from it on are excluded. -/
theorem Narrowed.below_middle (hc : TotalPreorder compare)
    (hsorted : (elements o m).Pairwise (fun a b => compare a b ≤ 0)) {lo hi mid : Nat}
    (h : Narrowed o compare m key lo hi) (hneg : compare key (item o m (mid + 1)) < 0) :
    Narrowed o compare m key lo mid := by
  refine ⟨h.below, fun k hk hkn => ?_⟩
  by_cases heq : k = mid + 1
  · rw [heq]
    exact hneg
  have hle := le_of_sorted hsorted (by omega : 0 < mid + 1) (by omega) hkn
  by_contra hge
  have hge' : compare (item o m k) key ≤ 0 := by
    have hiff := hc.neg_iff key (item o m k)
    omega
  have hmid := hc.trans _ _ _ hle hge'
  have hiff := hc.neg_iff key (item o m (mid + 1))
  omega

/-- After a comparison with an element that is less, the elements up to it are excluded. -/
theorem Narrowed.above_middle (hc : TotalPreorder compare)
    (hsorted : (elements o m).Pairwise (fun a b => compare a b ≤ 0)) {lo hi mid : Nat}
    (h : Narrowed o compare m key lo hi) (hpos : 0 < compare key (item o m (mid + 1)))
    (hmid : mid < o.cnt) : Narrowed o compare m key (mid + 1) hi := by
  refine ⟨fun k hk hkm => ?_, h.above⟩
  by_cases heq : k = mid + 1
  · rw [heq]
    exact hpos
  have hle := le_of_sorted hsorted hk (by omega) (by omega : mid + 1 ≤ o.cnt)
  by_contra hge
  have htrans := hc.trans _ _ _ (Int.not_lt.mp hge) hle
  omega

/-- The loop finds an element that compares equal, or none is there. -/
theorem searchLoop_spec (hc : TotalPreorder compare)
    (hsorted : (elements o m).Pairwise (fun a b => compare a b ≤ 0)) {rounds lo hi : Nat}
    (hlo : lo ≤ hi) (hhi : hi ≤ o.cnt) (hrounds : hi < lo + rounds)
    (h : Narrowed o compare m key lo hi) :
    (∃ k, 0 < k ∧ k ≤ o.cnt ∧ compare key (item o m k) = 0 ∧
      searchLoop o compare key m rounds (o.base + lo * size) (o.base + hi * size) =
        some (some (o.base + (k - 1) * size))) ∨
    (∀ k, 0 < k → k ≤ o.cnt → compare key (item o m k) ≠ 0) ∧
      searchLoop o compare key m rounds (o.base + lo * size) (o.base + hi * size) =
        some none := by
  induction rounds generalizing lo hi with
  | zero => omega
  | succ rounds ih =>
    rw [searchLoop]
    rcases Nat.lt_or_ge lo hi with hlt | hge
    · generalize hmid : lo + (hi - lo) / 2 = mid
      have hmul : lo * size < hi * size := Nat.mul_lt_mul_of_pos_right hlt o.size_pos
      have hrange : (o.base + hi * size - (o.base + lo * size)) / size = hi - lo := by
        rw [Nat.add_sub_add_left, ← Nat.sub_mul]
        exact Nat.mul_div_cancel _ o.size_pos
      have hend := o.end_lt
      have hle : mid * size + size ≤ o.cnt * size :=
        @index_mul_le size o (mid + 1) (Nat.succ_pos mid) (by omega)
      have hmiddle : (o.base + lo * size + (hi - lo) / 2 * size) % 2 ^ 32 =
          o.base + mid * size := by
        rw [Nat.add_assoc, ← Nat.add_mul, hmid]
        exact Nat.mod_eq_of_lt (by have := o.size_pos; omega)
      have hload : load o m (o.base + mid * size) = some (item o m (mid + 1)) :=
        load_index (Nat.succ_pos mid) (by omega)
      have hnext : (o.base + mid * size + size) % 2 ^ 32 = o.base + (mid + 1) * size := by
        rw [Nat.succ_mul, ← Nat.add_assoc]
        exact Nat.mod_eq_of_lt (by omega)
      rw [if_pos (by omega), hrange]
      dsimp only
      rw [hmiddle, hload, Option.bind_some]
      by_cases hneg : compare key (item o m (mid + 1)) < 0
      · rw [if_pos hneg]
        exact ih (by omega) (by omega) (by omega) (h.below_middle hc hsorted hneg)
      rw [if_neg hneg]
      by_cases hpos : 0 < compare key (item o m (mid + 1))
      · rw [if_pos hpos, hnext]
        exact ih (by omega) hhi (by omega) (h.above_middle hc hsorted hpos (by omega))
      · rw [if_neg hpos]
        exact Or.inl ⟨mid + 1, Nat.succ_pos mid, by omega, by omega, rfl⟩
    · have heq : hi = lo := by omega
      refine Or.inr ⟨fun k hk hkn => ?_, if_neg (by rw [heq]; exact Nat.lt_irrefl _)⟩
      rcases Nat.lt_or_ge lo k with hlk | hkl
      · exact Int.ne_of_lt (h.above k (by omega) hkn)
      · exact (Int.ne_of_lt (h.below k hk hkl)).symm

private theorem mem_elements {e : Element size} :
    e ∈ elements o m ↔ ∃ k, 0 < k ∧ k ≤ o.cnt ∧ item o m k = e := by
  unfold elements
  rw [List.mem_map]
  refine exists_congr fun k => ?_
  rw [List.mem_range'_1, and_assoc]
  exact and_congr_right fun _ => and_congr_left fun _ => by omega

private theorem binarySearch_spec (hc : TotalPreorder compare)
    (hsorted : (elements o m).Pairwise (fun a b => compare a b ≤ 0)) {rounds : Nat}
    (hrounds : o.cnt < rounds) :
    (∃ e ∈ elements o m, compare key e = 0) ∧
      (∃ p e, binarySearch o compare key m rounds = some (some p) ∧ load o m p = some e ∧
        compare key e = 0) ∨
    (∀ e ∈ elements o m, compare key e ≠ 0) ∧
      binarySearch o compare key m rounds = some none := by
  have hend : (o.base + size * o.cnt) % 2 ^ 32 = o.base + o.cnt * size := by
    rw [Nat.mul_comm]
    exact Nat.mod_eq_of_lt o.end_lt
  have hall : Narrowed o compare m key 0 o.cnt :=
    ⟨fun k hk hk0 => absurd hk (Nat.not_lt.mpr hk0), fun k hk hkn => absurd hk (Nat.not_lt.mpr hkn)⟩
  have hloop := @searchLoop_spec size o compare m key hc hsorted rounds 0 o.cnt (Nat.zero_le _)
    (Nat.le_refl _) (by omega) hall
  rw [Nat.zero_mul, Nat.add_zero, ← hend] at hloop
  rcases hloop with ⟨k, hk, hkn, hcmp, hfound⟩ | ⟨hnone, hnull⟩
  · exact Or.inl ⟨⟨_, mem_elements.mpr ⟨k, hk, hkn, rfl⟩, hcmp⟩,
      _, _, hfound, load_index hk hkn, hcmp⟩
  · refine Or.inr ⟨fun e he => ?_, hnull⟩
    obtain ⟨k, hk, hkn, rfl⟩ := mem_elements.mp he
    exact hnone k hk hkn

end Search

/-- With any bound of rounds above the number of elements, `sort` ends with a permutation of the
array in order and everything else unchanged, and `binary_search` in an array that is in order ends
with the address of an element that compares equal to the key, or with a null pointer if there is
none. Neither accesses anything but elements of the array. -/
theorem sort_and_binarySearch_right {size : Nat} (o : ArrayObject size)
    (compare : Element size → Element size → Int) (hc : TotalPreorder compare) (m : Bytes)
    (rounds : Nat) (hrounds : o.cnt < rounds) :
    (∃ m', sort o compare rounds m = some m' ∧ (elements o m').Perm (elements o m) ∧
      (elements o m').Pairwise (fun a b => compare a b ≤ 0) ∧ SameOutside o m m') ∧
    ((elements o m).Pairwise (fun a b => compare a b ≤ 0) → ∀ key : Element size,
      (∃ e ∈ elements o m, compare key e = 0) ∧
        (∃ p e, binarySearch o compare key m rounds = some (some p) ∧ load o m p = some e ∧
          compare key e = 0) ∨
      (∀ e ∈ elements o m, compare key e ≠ 0) ∧
        binarySearch o compare key m rounds = some none) :=
  ⟨sort_spec hc hrounds, fun hsorted _ => binarySearch_spec hc hsorted hrounds⟩

/-- Three single bytes at address 16. -/
def threeBytes : ArrayObject 1 := ⟨16, 3, by decide, by decide, by decide, by decide⟩

/-- The order of the first bytes. -/
def compareBytes (a b : Element 1) : Int := (a.1.headD 0).toNat - (b.1.headD 0).toNat

private theorem totalPreorder_compareBytes : TotalPreorder compareBytes where
  neg_iff := fun a b => by
    unfold compareBytes
    omega
  trans := fun a b c => by
    unfold compareBytes
    omega

/-- The bytes 3, 1, 2 are sorted; in 0, 1, 2 the byte 2 is found and 7 is not. -/
theorem sort_and_binarySearch_right_bytes :
    (∃ m', sort threeBytes compareBytes 4 (fun p => [3, 1, 2].getD (p - 16) 0) = some m' ∧
      (elements threeBytes m').Pairwise (fun a b => compareBytes a b ≤ 0)) ∧
    (∃ p, binarySearch threeBytes compareBytes ⟨[2], rfl⟩ (fun p => [0, 1, 2].getD (p - 16) 0) 4 =
      some (some p)) ∧
    binarySearch threeBytes compareBytes ⟨[7], rfl⟩ (fun p => [0, 1, 2].getD (p - 16) 0) 4 =
      some none := by
  have hright := sort_and_binarySearch_right threeBytes compareBytes totalPreorder_compareBytes
  have hsorted : (elements threeBytes fun p => [0, 1, 2].getD (p - 16) 0).Pairwise
      (fun a b => compareBytes a b ≤ 0) := by decide
  obtain ⟨m', hm', -, hm, -⟩ := (hright (fun p => [3, 1, 2].getD (p - 16) 0) 4 (by decide)).1
  have hsearch := (hright (fun p => [0, 1, 2].getD (p - 16) 0) 4 (by decide)).2 hsorted
  refine ⟨⟨m', hm', hm⟩, ?_, ?_⟩
  · rcases hsearch ⟨[2], rfl⟩ with hfound | hnone
    · obtain ⟨p, e, hp, -⟩ := hfound.2
      exact ⟨p, hp⟩
    · exact absurd hnone.1 (by decide)
  · rcases hsearch ⟨[7], rfl⟩ with hfound | hnone
    · exact absurd hfound.1 (by decide)
    · exact hnone.2

end Pintos.Lib.Sort

import Mathlib.Data.List.Nodup
import Mathlib.Logic.Equiv.Basic

/-!
# Binary heaps in arrays

A heap is an array whose positions are numbered from 1, with the children of `p` at `2 p` and
`2 p + 1`. The largest element is at the top. An element that is exchanged with its largest child,
level by level, sinks to its place; the elements taken off the top one after the other are in
order.
-/

namespace Pintos.Base.BinaryHeap

universe u

variable {α : Type u} {le : α → α → Prop} {f g h : Nat → α} {lo hole n i : Nat}

/-- The children up to `n` of the positions from `lo` on are not greater than their parents. -/
def Ordered (le : α → α → Prop) (f : Nat → α) (lo n : Nat) : Prop :=
  ∀ c ≤ n, lo ≤ c / 2 → le (f c) (f (c / 2))

/-- The heap is ordered but for the children of one position, and even they are not greater than
the parent of that position. -/
structure Sinking (le : α → α → Prop) (f : Nat → α) (lo hole n : Nat) : Prop where
  other : ∀ c ≤ n, lo ≤ c / 2 → c / 2 ≠ hole → le (f c) (f (c / 2))
  grand : ∀ c ≤ n, c / 2 = hole → lo ≤ hole / 2 → le (f c) (f (hole / 2))

/-- The array after the elements at two positions have been exchanged. -/
def exchange (f : Nat → α) (i j : Nat) : Nat → α := fun k => f (Equiv.swap i j k)

@[simp] theorem exchange_left (f : Nat → α) (i j : Nat) : exchange f i j i = f j :=
  congrArg f (Equiv.swap_apply_left i j)

@[simp] theorem exchange_right (f : Nat → α) (i j : Nat) : exchange f i j j = f i :=
  congrArg f (Equiv.swap_apply_right i j)

theorem exchange_of_ne (f : Nat → α) {i j k : Nat} (hi : k ≠ i) (hj : k ≠ j) :
    exchange f i j k = f k :=
  congrArg f (Equiv.swap_apply_of_ne_of_ne hi hj)

theorem Sinking.congr (h : Sinking le f lo hole n) (hlo : 0 < lo) (hg : ∀ k, 0 < k → g k = f k) :
    Sinking le g lo hole n where
  other := fun c hc hle hne => by
    rw [hg c (by omega), hg (c / 2) (by omega)]
    exact h.other c hc hle hne
  grand := fun c hc hparent hle => by
    rw [hg c (by omega), hg (hole / 2) (by omega)]
    exact h.grand c hc hparent hle

theorem Ordered.sinking (h : Ordered le f (lo + 1) n) (hlo : 0 < lo) :
    Sinking le f lo lo n where
  other := fun c hc _ _ => h c hc (by omega)
  grand := fun _ _ _ hle => by omega

theorem Sinking.exchange {c : Nat} (h : Sinking le f lo hole n) (hhole : 0 < hole)
    (hc : c / 2 = hole) (hcn : c ≤ n) (hle : le (f hole) (f c))
    (hmax : ∀ d ≤ n, d / 2 = hole → le (f d) (f c)) :
    Sinking le (exchange f hole c) lo c n where
  other := by
    intro d hd hlo hne
    by_cases hparent : d / 2 = hole
    · rw [hparent, exchange_left]
      by_cases hdc : d = c
      · rw [hdc, exchange_right]
        exact hle
      · rw [exchange_of_ne f (by omega) hdc]
        exact hmax d hd hparent
    · rw [exchange_of_ne f hparent hne]
      by_cases hdh : d = hole
      · rw [hdh, exchange_left]
        exact h.grand c hcn hc (by omega)
      · rw [exchange_of_ne f hdh (by omega)]
        exact h.other d hd hlo hparent
  grand := by
    intro d hd hdc hlo
    have hother := h.other d hd (by omega) (by omega)
    rw [hc, exchange_left, exchange_of_ne f (by omega) (by omega), ← hdc]
    exact hother

theorem Sinking.arrived (h : Sinking le f lo hole n)
    (hmax : ∀ c ≤ n, c / 2 = hole → le (f c) (f hole)) : Ordered le f lo n := by
  intro c hc hlo
  by_cases hparent : c / 2 = hole
  · rw [hparent]
    exact hmax c hc hparent
  · exact h.other c hc hlo hparent

private theorem Ordered.le_top (hrefl : ∀ a, le a a) (htrans : ∀ a b c, le a b → le b c → le a c)
    (h : Ordered le f 1 n) {k : Nat} (hpos : 0 < k) (hk : k ≤ n) : le (f k) (f 1) := by
  induction k using Nat.strongRecOn with
  | ind k ih =>
    rcases Nat.lt_or_ge 1 k with hlt | hge
    · exact htrans _ _ _ (h k hk (by omega)) (ih (k / 2) (by omega) (by omega) (by omega))
    · obtain rfl : k = 1 := by omega
      exact hrefl _

/-! ## Rearrangements -/

/-- The elements at the positions from 1 to `n` have been rearranged. -/
def Rearranged (n : Nat) (f g : Nat → α) : Prop :=
  ∃ σ : Equiv.Perm Nat, (∀ k, k = 0 ∨ n < k → σ k = k) ∧ ∀ k, 0 < k → g k = f (σ k)

theorem Rearranged.refl (n : Nat) (f : Nat → α) : Rearranged n f f :=
  ⟨Equiv.refl Nat, fun _ _ => rfl, fun _ _ => rfl⟩

private theorem perm_mem_range {σ : Equiv.Perm Nat} (hσ : ∀ k, k = 0 ∨ n < k → σ k = k) {k : Nat}
    (hpos : 0 < k) (hk : k ≤ n) : 0 < σ k ∧ σ k ≤ n := by
  by_contra hout
  have hfix : σ (σ k) = σ k := hσ (σ k) (by omega)
  have hk' : σ k = k := σ.injective hfix
  omega

private theorem perm_pos {σ : Equiv.Perm Nat} (hσ : ∀ k, k = 0 ∨ n < k → σ k = k) {k : Nat}
    (hk : 0 < k) :
    0 < σ k := by
  rcases Nat.lt_or_ge n k with hgt | hle
  · rw [hσ k (Or.inr hgt)]
    exact hk
  · exact (perm_mem_range hσ hk hle).1

private theorem Rearranged.of_gt (hr : Rearranged n f g) {k : Nat} (hk : n < k) : g k = f k := by
  obtain ⟨σ, hσ, hg⟩ := hr
  rw [hg k (by omega), hσ k (Or.inr hk)]

private theorem Rearranged.forall {P : α → Prop} (hr : Rearranged n f g)
    (hf : ∀ k, 0 < k → k ≤ n → P (f k)) {k : Nat} (hpos : 0 < k) (hk : k ≤ n) : P (g k) := by
  obtain ⟨σ, hσ, hg⟩ := hr
  have hrange := perm_mem_range hσ hpos hk
  rw [hg k hpos]
  exact hf _ hrange.1 hrange.2

theorem Rearranged.trans (hr : Rearranged n f g) (hr' : Rearranged n g h) : Rearranged n f h := by
  obtain ⟨σ, hσ, hg⟩ := hr
  obtain ⟨τ, hτ, hh⟩ := hr'
  refine ⟨τ.trans σ, fun k hk => ?_, fun k hk => ?_⟩
  · rw [Equiv.trans_apply, hτ k hk, hσ k hk]
  · rw [Equiv.trans_apply, hh k hk, hg _ (perm_pos hτ hk)]

theorem Rearranged.congr_left (hr : Rearranged n f h) (hg : ∀ k, 0 < k → f k = g k) :
    Rearranged n g h := by
  obtain ⟨σ, hσ, hh⟩ := hr
  refine ⟨σ, hσ, fun k hk => ?_⟩
  rw [hh k hk, hg _ (perm_pos hσ hk)]

theorem Rearranged.mono {m : Nat} (hr : Rearranged n f g) (hle : n ≤ m) : Rearranged m f g := by
  obtain ⟨σ, hσ, hg⟩ := hr
  exact ⟨σ, fun k hk => hσ k (by omega), hg⟩

/-- An exchange, where only the positions from 1 on are looked at. -/
theorem rearranged_exchange {j : Nat} (hi : 0 < i) (hin : i ≤ n) (hj : 0 < j) (hjn : j ≤ n)
    (hg : ∀ k, 0 < k → g k = exchange f i j k) : Rearranged n f g :=
  ⟨Equiv.swap i j, fun _ hk => Equiv.swap_apply_of_ne_of_ne (by omega) (by omega), hg⟩

/-- The elements after a rearrangement are a permutation of those before. -/
theorem Rearranged.perm (hr : Rearranged n f g) :
    ((List.range' 1 n).map g).Perm ((List.range' 1 n).map f) := by
  obtain ⟨σ, hσ, hg⟩ := hr
  have hmap : (List.range' 1 n).map g = ((List.range' 1 n).map σ).map f := by
    rw [List.map_map]
    refine List.map_congr_left fun k hk => hg k ?_
    have hk := List.mem_range'_1.mp hk
    omega
  rw [hmap]
  refine List.Perm.map f ?_
  have hnodup : (List.range' 1 n).Nodup := List.nodup_range'
  refine (List.perm_ext_iff_of_nodup (hnodup.map σ.injective) hnodup).mpr fun k => ?_
  rw [List.mem_map, List.mem_range'_1]
  constructor
  · rintro ⟨j, hj, rfl⟩
    rw [List.mem_range'_1] at hj
    have hrange := perm_mem_range hσ (Nat.lt_of_succ_le hj.1) (by omega)
    omega
  · intro hk
    have hτ : ∀ k, k = 0 ∨ n < k → σ.symm k = k := by
      intro k hk
      exact σ.symm_apply_eq.mpr (hσ k hk).symm
    have hrange := perm_mem_range hτ (Nat.lt_of_succ_le hk.1) (by omega)
    exact ⟨σ.symm k, List.mem_range'_1.mpr (by omega), σ.apply_symm_apply k⟩

/-! ## Sorting -/

/-- The first `i` elements are a heap, the others are in order and not less than those. -/
structure Sorting (le : α → α → Prop) (f : Nat → α) (i n : Nat) : Prop where
  heap : Ordered le f 1 i
  bound : ∀ j k, 0 < j → j ≤ i → i < k → k ≤ n → le (f j) (f k)
  sorted : ∀ j k, i < j → j < k → k ≤ n → le (f j) (f k)

theorem Ordered.sorting (h : Ordered le f 1 n) : Sorting le f n n where
  heap := h
  bound := fun _ _ _ _ hk hkn => absurd hk (Nat.not_lt.mpr hkn)
  sorted := fun _ _ hj hk hkn => by omega

/-- When the top has been exchanged with the last element of the heap, this one can sink. -/
theorem Sorting.sinking (hs : Sorting le f (i + 1) n) :
    Sinking le (exchange f 1 (i + 1)) 1 1 i where
  other := by
    intro c hc hlo hne
    rw [exchange_of_ne f (by omega) (by omega), exchange_of_ne f hne (by omega)]
    exact hs.heap c (by omega) hlo
  grand := fun _ _ _ hlo => by omega

/-- The exchanged top is in its place when the rest is a heap again. -/
theorem Sorting.next (hrefl : ∀ a, le a a) (htrans : ∀ a b c, le a b → le b c → le a c)
    (hs : Sorting le f (i + 1) n) (hr : Rearranged i (exchange f 1 (i + 1)) g)
    (hg : Ordered le g 1 i) : Sorting le g i n := by
  have htop : g (i + 1) = f 1 := by rw [hr.of_gt (Nat.lt_succ_self i), exchange_right]
  have hbehind : ∀ k, i + 1 < k → g k = f k := by
    intro k hk
    rw [hr.of_gt (by omega), exchange_of_ne f (by omega) (by omega)]
  -- the elements of the heap come from the first `i + 1` positions
  have hbelow : ∀ a, (∀ k, 0 < k → k ≤ i + 1 → le (f k) a) → ∀ k, 0 < k → k ≤ i → le (g k) a := by
    intro a hP k hpos hk
    refine @Rearranged.forall _ _ _ _ (le · a) hr (fun j hj hji => ?_) k hpos hk
    by_cases hone : j = 1
    · rw [hone, exchange_left]
      exact hP _ (Nat.succ_pos i) (Nat.le_refl _)
    · rw [exchange_of_ne f hone (by omega)]
      exact hP j hj (by omega)
  refine ⟨hg, fun j k hj hji hik hkn => ?_, fun j k hj hjk hkn => ?_⟩
  · by_cases hk : k = i + 1
    · rw [hk, htop]
      exact hbelow _ (fun l hl hli => hs.heap.le_top hrefl htrans hl hli) j hj hji
    · rw [hbehind k (by omega)]
      exact hbelow _ (fun l hl hli => hs.bound l k hl hli (by omega) hkn) j hj hji
  · rw [hbehind k (by omega)]
    by_cases hj' : j = i + 1
    · rw [hj', htop]
      exact hs.bound 1 k Nat.one_pos (by omega) (by omega) hkn
    · rw [hbehind j (by omega)]
      exact hs.sorted j k (by omega) hjk hkn

theorem Sorting.pairwise (hs : Sorting le f i n) (hi : i ≤ 1) :
    ((List.range' 1 n).map f).Pairwise le := by
  have hlt : (List.range' 1 n).Pairwise (· < ·) := List.pairwise_lt_range'
  refine List.pairwise_map.mpr (hlt.imp_of_mem fun {j k} hj hk hlt => ?_)
  rw [List.mem_range'_1] at hj hk
  rcases Nat.lt_or_ge i j with hij | hij
  · exact hs.sorted j k hij hlt (by omega)
  · exact hs.bound j k (by omega) hij (by omega) (by omega)

end Pintos.Base.BinaryHeap

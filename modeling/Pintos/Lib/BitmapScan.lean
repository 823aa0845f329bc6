import Mathlib.Order.Bounds.Basic
import Pintos.Lib.PackedBitmap

/-!
# Searching a packed bitmap

The loops of `bitmap_scan_and_flip` on the words of a `struct bitmap`, with `size_t` indices. A
failed assertion, an access outside the words of the bitmap and a loop that runs out of rounds give
none.
Source `lib/kernel/bitmap.c:26–61, 143–228, 248–262, 295–325`.
-/

namespace Pintos.Lib

/-- `BITMAP_ERROR`, which is `SIZE_MAX`. -/
def BITMAP_ERROR : Nat := 2 ^ 32 - 1

/-- `struct bitmap`, with as many words as its bits take. -/
structure WordBitmap where
  bitCnt : Nat
  bits : List (BitVec 32)
  bitCnt_lt : bitCnt < 2 ^ 32
  length_bits : bits.length = (bitCnt + (ELEM_BITS - 1)) / ELEM_BITS

namespace WordBitmap

/-- A bit of the words, also one behind the last that is in use. -/
def bit (b : WordBitmap) (k : Nat) : Bool :=
  (b.bits[elemIdx k]?.getD 0#32).getLsbD (k % ELEM_BITS)

/-- `bitmap_test`, `lib/kernel/bitmap.c:196–203`. -/
def bitmapTest (b : WordBitmap) (idx : Nat) : Option Bool := do
  guard (idx < b.bitCnt)
  let word ← b.bits[elemIdx idx]?
  return word &&& bitMask idx ≠ 0#32

/-- `bitmap_set` with `bitmap_mark` and `bitmap_reset`, `lib/kernel/bitmap.c:143–179`. -/
def bitmapSet (b : WordBitmap) (idx : Nat) (value : Bool) : Option WordBitmap := do
  guard (idx < b.bitCnt)
  let word ← b.bits[elemIdx idx]?
  let word := if value then word ||| bitMask idx else word &&& ~~~ bitMask idx
  return { b with
    bits := b.bits.set (elemIdx idx) word
    length_bits := List.length_set.trans b.length_bits }

/-- The loop of `bitmap_set_multiple`, from bit `start + i` on. -/
def setLoop (b : WordBitmap) (start : Nat) (value : Bool) (i : Nat) : Nat → Option WordBitmap
  | 0 => some b
  | left + 1 => do (← b.bitmapSet (start + i) value).setLoop start value (i + 1) left

/-- `bitmap_set_multiple`, `lib/kernel/bitmap.c:216–227`. -/
def bitmapSetMultiple (b : WordBitmap) (start cnt : Nat) (value : Bool) : Option WordBitmap := do
  guard (start ≤ b.bitCnt)
  guard ((start + cnt) % 2 ^ 32 ≤ b.bitCnt)
  b.setLoop start value 0 cnt

/-- The loop of `bitmap_contains`, from bit `start + i` on. -/
def containsLoop (b : WordBitmap) (start : Nat) (value : Bool) (i : Nat) : Nat → Option Bool
  | 0 => some false
  | left + 1 => do
    if (← b.bitmapTest (start + i)) = value then return true
    b.containsLoop start value (i + 1) left

/-- `bitmap_contains`, `lib/kernel/bitmap.c:248–262`. -/
def bitmapContains (b : WordBitmap) (start cnt : Nat) (value : Bool) : Option Bool := do
  guard (start ≤ b.bitCnt)
  guard ((start + cnt) % 2 ^ 32 ≤ b.bitCnt)
  b.containsLoop start value 0 cnt

/-- The loop of `bitmap_scan`, from `i` on. -/
def scanLoop (b : WordBitmap) (cnt last : Nat) (value : Bool) : Nat → Nat → Option Nat
  | 0, _ => none
  | rounds + 1, i => do
    if i ≤ last then
      if ← b.bitmapContains i cnt (!value) then b.scanLoop cnt last value rounds ((i + 1) % 2 ^ 32)
      else return i
    else return BITMAP_ERROR

/-- `bitmap_scan`, `lib/kernel/bitmap.c:295–309`. -/
def bitmapScan (b : WordBitmap) (rounds start cnt : Nat) (value : Bool) : Option Nat := do
  guard (start ≤ b.bitCnt)
  if cnt ≤ b.bitCnt then b.scanLoop cnt (b.bitCnt - cnt) value rounds start
  else return BITMAP_ERROR

/-- `bitmap_scan_and_flip`, `lib/kernel/bitmap.c:318–325`. -/
def bitmapScanAndFlip (b : WordBitmap) (rounds start cnt : Nat) (value : Bool) :
    Option (Nat × WordBitmap) := do
  let idx ← b.bitmapScan rounds start cnt value
  if idx ≠ BITMAP_ERROR then return (idx, ← b.bitmapSetMultiple idx cnt (!value))
  else return (idx, b)

/-- A group of `cnt` bits at `i`, at or behind `start`, that all exist and have this value. -/
def Group (b : WordBitmap) (start cnt : Nat) (value : Bool) (i : Nat) : Prop :=
  start ≤ i ∧ i + cnt ≤ b.bitCnt ∧ ∀ k, i ≤ k → k < i + cnt → b.bit k = value

variable {b : WordBitmap} {start cnt i k : Nat} {value : Bool}

private theorem lt_length (hk : k < b.bitCnt) : elemIdx k < b.bits.length := by
  rw [b.length_bits]
  unfold elemIdx ELEM_BITS
  omega

private theorem bitmapTest_eq (hk : k < b.bitCnt) : b.bitmapTest k = some (b.bit k) := by
  have hlen := lt_length hk
  have hword := List.getElem?_eq_getElem hlen
  unfold bitmapTest bit
  simp only [hk, guard, if_true, hword, Option.bind_eq_bind, Option.bind_some, Option.getD_some]
  exact congrArg some (elemsTest_eq (fun _ => b.bits[elemIdx k]) k)

private theorem bitmapSet_spec (hk : k < b.bitCnt) : ∃ b', b.bitmapSet k value = some b' ∧
    b'.bitCnt = b.bitCnt ∧ ∀ j, b'.bit j = if j = k then value else b.bit j := by
  have hlen := lt_length hk
  have hword := List.getElem?_eq_getElem hlen
  unfold bitmapSet
  simp only [hk, guard, if_true, hword, Option.bind_eq_bind, Option.bind_some]
  refine ⟨_, rfl, rfl, fun j => ?_⟩
  have hj : j = k ↔ elemIdx j = elemIdx k ∧ k % ELEM_BITS = j % ELEM_BITS := by
    unfold elemIdx ELEM_BITS
    omega
  have hlt : j % ELEM_BITS < 32 := Nat.mod_lt _ (by decide)
  by_cases hidx : elemIdx j = elemIdx k
  · have hmask := getLsbD_bitMask k (j % ELEM_BITS)
    simp only [bit, hidx, List.getElem?_set_self hlen, hword, Option.getD_some, hj, true_and]
    cases value
    · simp only [Bool.false_eq_true, if_false, BitVec.getLsbD_and, BitVec.getLsbD_not, hmask]
      by_cases hbit : k % ELEM_BITS = j % ELEM_BITS <;> simp [hbit, hlt]
    · simp only [if_true, BitVec.getLsbD_or, hmask]
      by_cases hbit : k % ELEM_BITS = j % ELEM_BITS <;> simp [hbit]
  · simp only [bit, List.getElem?_set_ne (Ne.symm hidx), hj, hidx, false_and, if_false]

/-- The bits from `start + i` on are stored. -/
theorem setLoop_spec (left : Nat) (h : start + (i + left) ≤ b.bitCnt) :
    ∃ b', b.setLoop start value i left = some b' ∧ b'.bitCnt = b.bitCnt ∧
      ∀ k, b'.bit k = if start + i ≤ k ∧ k < start + (i + left) then value else b.bit k := by
  induction left generalizing b i with
  | zero =>
    refine ⟨b, rfl, rfl, fun k => ?_⟩
    rw [if_neg (by omega)]
  | succ left ih =>
    obtain ⟨b1, hset, hcnt1, hbit1⟩ := @bitmapSet_spec b (start + i) value (by omega)
    obtain ⟨b2, hloop, hcnt2, hbit2⟩ := @ih b1 (i + 1) (by omega)
    refine ⟨b2, ?_, hcnt2.trans hcnt1, fun k => ?_⟩
    · rw [setLoop, hset]
      exact hloop
    · rw [hbit2, hbit1]
      split_ifs <;> first | rfl | omega

private theorem bitmapSetMultiple_spec (h : start + cnt ≤ b.bitCnt) :
    ∃ b', b.bitmapSetMultiple start cnt value = some b' ∧ b'.bitCnt = b.bitCnt ∧
      ∀ k, b'.bit k = if start ≤ k ∧ k < start + cnt then value else b.bit k := by
  have hlt := b.bitCnt_lt
  have hwrap : (start + cnt) % 2 ^ 32 = start + cnt := Nat.mod_eq_of_lt (by omega)
  obtain ⟨b', hloop, hcnt, hbit⟩ := @setLoop_spec b start 0 value cnt (by omega)
  rw [Nat.zero_add, Nat.add_zero] at hbit
  refine ⟨b', ?_, hcnt, hbit⟩
  unfold bitmapSetMultiple
  rw [hwrap]
  simp only [guard, h, show start ≤ b.bitCnt by omega, if_true, Option.bind_eq_bind]
  exact hloop

private theorem containsLoop_spec (left : Nat) (h : start + (i + left) ≤ b.bitCnt) :
    ∃ r, b.containsLoop start value i left = some r ∧
      (r = true ↔ ∃ k, start + i ≤ k ∧ k < start + (i + left) ∧ b.bit k = value) := by
  induction left generalizing i with
  | zero =>
    refine ⟨false, rfl, ?_⟩
    simp only [Bool.false_eq_true, false_iff]
    rintro ⟨k, hle, hlt, -⟩
    omega
  | succ left ih =>
    have htest := @bitmapTest_eq b (start + i) (by omega)
    rw [containsLoop, htest]
    simp only [Option.bind_eq_bind, Option.bind_some]
    by_cases hbit : b.bit (start + i) = value
    · rw [if_pos hbit]
      exact ⟨true, rfl, iff_of_true rfl ⟨start + i, le_rfl, by omega, hbit⟩⟩
    · rw [if_neg hbit]
      obtain ⟨r, hloop, hiff⟩ := @ih (i + 1) (by omega)
      refine ⟨r, hloop, hiff.trans ⟨?_, ?_⟩⟩
      · rintro ⟨k, hle, hlt, hk⟩
        exact ⟨k, by omega, by omega, hk⟩
      · rintro ⟨k, hle, hlt, hk⟩
        have hne : k ≠ start + i := fun heq => hbit (heq ▸ hk)
        exact ⟨k, by omega, by omega, hk⟩

/-- Inside the bitmap `bitmap_contains` looks for a bit that a group of the other value lacks. -/
theorem bitmapContains_spec (hs : start ≤ i) (h : i + cnt ≤ b.bitCnt) :
    ∃ r, b.bitmapContains i cnt (!value) = some r ∧ (r = false ↔ b.Group start cnt value i) := by
  have hlt := b.bitCnt_lt
  have hwrap : (i + cnt) % 2 ^ 32 = i + cnt := Nat.mod_eq_of_lt (by omega)
  obtain ⟨r, hloop, hiff⟩ := @containsLoop_spec b i 0 (!value) cnt (by omega)
  rw [Nat.zero_add, Nat.add_zero] at hiff
  refine ⟨r, ?_, ?_⟩
  · unfold bitmapContains
    rw [hwrap]
    simp only [guard, h, show i ≤ b.bitCnt by omega, if_true, Option.bind_eq_bind]
    exact hloop
  · rw [← Bool.not_eq_true, hiff]
    constructor
    · intro hno
      refine ⟨hs, h, fun k hle hlt => ?_⟩
      by_contra hk
      exact hno ⟨k, hle, hlt, Bool.eq_not.mpr hk⟩
    · rintro ⟨-, -, hall⟩ ⟨k, hle, hlt, hk⟩
      rw [hall k hle hlt] at hk
      exact absurd hk (by cases value <;> decide)

/-- The search from `i` on finds the first group, provided that there is none before. -/
theorem scanLoop_spec (hcnt : cnt ≤ b.bitCnt) (hi : start ≤ i) (rounds : Nat)
    (hrounds : b.bitCnt + 2 ≤ rounds + i) (hbound : i ≤ b.bitCnt)
    (hbefore : ∀ j < i, ¬ b.Group start cnt value j) :
    ∃ r, b.scanLoop cnt (b.bitCnt - cnt) value rounds i = some r ∧
      (IsLeast {j | b.Group start cnt value j} r ∨
        (∀ j, ¬ b.Group start cnt value j) ∧ r = BITMAP_ERROR) := by
  induction rounds generalizing i with
  | zero => omega
  | succ rounds ih =>
    rw [scanLoop]
    by_cases hlast : i ≤ b.bitCnt - cnt
    · obtain ⟨r, hr, hiff⟩ := @bitmapContains_spec b start cnt i value hi (by omega)
      rw [if_pos hlast, hr]
      cases r with
      | false =>
        refine ⟨i, rfl, .inl ⟨hiff.mp rfl, fun j hj => ?_⟩⟩
        by_contra hlt
        exact hbefore j (by omega) hj
      | true =>
        have hnot : ¬ b.Group start cnt value i := fun hgroup => by cases hiff.mpr hgroup
        -- a group of no bits is found at once, so `i` is not the last index
        have hpos : cnt ≠ 0 := by
          rintro rfl
          exact hnot ⟨hi, by omega, fun k hle hlt => by omega⟩
        have hlt := b.bitCnt_lt
        have hnext : (i + 1) % 2 ^ 32 = i + 1 := Nat.mod_eq_of_lt (by omega)
        simp only [Option.bind_eq_bind, Option.bind_some, if_true, hnext]
        apply ih (by omega) (by omega) (by omega)
        intro j hj
        rcases Nat.lt_succ_iff_lt_or_eq.mp hj with hj | rfl
        · exact hbefore j hj
        · exact hnot
    · rw [if_neg hlast]
      refine ⟨_, rfl, .inr ⟨fun j hgroup => ?_, rfl⟩⟩
      have hfits := hgroup.2.1
      exact hbefore j (by omega) hgroup

/-- `bitmap_scan_and_flip` is first fit and local, on every bitmap: with a round of the scan for
each index it returns, so that no assertion fails and no word outside the bitmap is touched. -/
theorem bitmap_scan_first_fit (b : WordBitmap) (rounds start cnt : Nat) (value : Bool)
    (hstart : start ≤ b.bitCnt) (hrounds : b.bitCnt + 2 ≤ rounds) :
    ∃ i b', b.bitmapScanAndFlip rounds start cnt value = some (i, b') ∧
      ((IsLeast {j | b.Group start cnt value j} i ∧ b'.bitCnt = b.bitCnt ∧
          ∀ k, b'.bit k = if i ≤ k ∧ k < i + cnt then !b.bit k else b.bit k) ∨
        (∀ j, ¬ b.Group start cnt value j) ∧ i = BITMAP_ERROR ∧ b' = b) := by
  have hscan : ∃ r, b.bitmapScan rounds start cnt value = some r ∧
      (IsLeast {j | b.Group start cnt value j} r ∨
        (∀ j, ¬ b.Group start cnt value j) ∧ r = BITMAP_ERROR) := by
    unfold bitmapScan
    simp only [guard, hstart, if_true, Option.bind_eq_bind]
    by_cases hcnt : cnt ≤ b.bitCnt
    · rw [if_pos hcnt]
      exact scanLoop_spec hcnt le_rfl rounds (by omega) hstart fun j hj hgroup =>
        absurd hgroup.1 (by omega)
    · rw [if_neg hcnt]
      refine ⟨_, rfl, .inr ⟨fun j hgroup => ?_, rfl⟩⟩
      have hfits := hgroup.2.1
      omega
  obtain ⟨i, hi, hcase⟩ := hscan
  unfold bitmapScanAndFlip
  rw [hi]
  simp only [Option.bind_eq_bind, Option.bind_some]
  rcases hcase with hleast | ⟨hnone, rfl⟩
  · obtain ⟨-, hfits, hall⟩ : b.Group start cnt value i := hleast.1
    by_cases herror : i = BITMAP_ERROR
    · -- only a group of no bits is found there
      have hlt := b.bitCnt_lt
      have hzero : cnt = 0 := by
        unfold BITMAP_ERROR at herror
        omega
      rw [if_neg (not_not.mpr herror)]
      refine ⟨i, b, rfl, .inl ⟨hleast, rfl, fun k => ?_⟩⟩
      rw [if_neg (by omega)]
    · rw [if_pos herror]
      obtain ⟨b', hset, hcnt, hbit⟩ := @bitmapSetMultiple_spec b i cnt (!value) hfits
      rw [hset]
      refine ⟨i, b', rfl, .inl ⟨hleast, hcnt, fun k => ?_⟩⟩
      rw [hbit]
      split_ifs with hin
      · rw [hall k hin.1 hin.2]
      · rfl
  · exact ⟨_, b, rfl, .inr ⟨hnone, rfl, rfl⟩⟩

/-- Thirty-four bits, of which the last but one is set. -/
def twoWords : WordBitmap := ⟨34, [0#32, 1#32], by decide, by decide⟩

/-- Two clear bits that straddle the words are not free behind index 30: bit 32 is set. -/
theorem bitmap_scan_first_fit_twoWords : ∃ i b',
    twoWords.bitmapScanAndFlip 36 31 2 false = some (i, b') ∧ i = BITMAP_ERROR ∧ b' = twoWords := by
  obtain ⟨i, b', hrun, hcase⟩ := bitmap_scan_first_fit twoWords 36 31 2 false (by decide) (by decide)
  refine ⟨i, b', hrun, ?_⟩
  rcases hcase with ⟨⟨⟨hle, hfits, hall⟩, -⟩, -⟩ | ⟨-, herror, hsame⟩
  · have hfits' : i + 2 ≤ 34 := hfits
    have hbit := hall 32 (by omega) (by omega)
    exact absurd hbit (by decide)
  · exact ⟨herror, hsame⟩

end WordBitmap

end Pintos.Lib

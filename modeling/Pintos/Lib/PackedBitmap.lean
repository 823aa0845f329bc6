import Mathlib.Data.BitVec
import Pintos.Lib.Bitmap
import Pintos.Lib.Bytes

/-!
# Bitmaps packed into words

Source `lib/kernel/bitmap.c:11–70,196–203,336–360`. The elements of a
`struct bitmap` are 32-bit words, lowest bit first; the last element may have bits that
stand for nothing. `pack` gives the elements that hold a list of bits: tests of the elements and
of the list agree, and so do the stored and the loaded form, whatever the number of bits.
-/

namespace Pintos.Lib

/-- Number of bits in an element. -/
def ELEM_BITS : Nat := 32

/-- Index of the element that contains a bit; `lib/kernel/bitmap.c:35–39`. -/
def elemIdx (bitIdx : Nat) : Nat := bitIdx / ELEM_BITS

/-- The element in which only that bit is turned on; `lib/kernel/bitmap.c:43–47`. -/
def bitMask (bitIdx : Nat) : BitVec 32 := 1#32 <<< (bitIdx % ELEM_BITS)

/-- Number of elements required; the sum is a `size_t`; `lib/kernel/bitmap.c:50–54`. -/
def elemCnt (bitCnt : Nat) : Nat := (bitCnt + (ELEM_BITS - 1)) % 2 ^ 32 / ELEM_BITS

/-- Number of bytes required; `lib/kernel/bitmap.c:57–61`. -/
def byteCnt (bitCnt : Nat) : Nat := 4 * elemCnt bitCnt

/-- The elements of a `struct bitmap`. -/
abbrev Elems := Nat → BitVec 32

/-- The bits in use of the last element; `lib/kernel/bitmap.c:65–70`. -/
def lastMask (bitCnt : Nat) : BitVec 32 :=
  let lastBits := bitCnt % ELEM_BITS
  if lastBits ≠ 0 then (1#32 <<< lastBits) - 1#32 else -1#32

/-- `bitmap_test`; `lib/kernel/bitmap.c:196–203`. -/
def elemsTest (bits : Elems) (idx : Nat) : Bool := bits (elemIdx idx) &&& bitMask idx ≠ 0#32

/-- The elements as they lie in memory. -/
def elemsToBytes (bits : Elems) : Bytes := fun j => leByte (bits (j / 4)).toNat (j % 4)

/-- The elements that memory holds. -/
def elemsOfBytes (b : Bytes) : Elems := fun k => BitVec.ofNat 32 (leWord fun j => b (4 * k + j))

/-- Turn off the bits of the last element that are not in use;
`lib/kernel/bitmap.c:348`. -/
def maskLast (bitCnt : Nat) (bits : Elems) : Elems :=
  Function.update bits (elemCnt bitCnt - 1) (bits (elemCnt bitCnt - 1) &&& lastMask bitCnt)

/-- The elements that hold a list of bits. -/
def pack (b : Bitmap) : Elems := fun k =>
  BitVec.ofNat 32 (Nat.ofBits fun i : Fin 32 => bitmapTest b (ELEM_BITS * k + i))

/-- The bits that elements hold. -/
def unpack (bitCnt : Nat) (bits : Elems) : Bitmap := (List.range bitCnt).map (elemsTest bits)

private theorem bitmapTest_of_ge {b : Bitmap} {i : Nat} (h : b.length ≤ i) :
    bitmapTest b i = false := by
  unfold bitmapTest
  rw [List.getElem?_eq_none h]
  rfl

private theorem getLsbD_pack (b : Bitmap) (k j : Nat) (hj : j < 32) :
    (pack b k).getLsbD j = bitmapTest b (ELEM_BITS * k + j) := by
  unfold pack
  rw [BitVec.getLsbD_ofNat, decide_eq_true hj, Bool.true_and, Nat.testBit_ofBits_lt _ _ hj]

theorem getLsbD_bitMask (idx j : Nat) :
    (bitMask idx).getLsbD j = decide (idx % ELEM_BITS = j) := by
  unfold bitMask
  rw [← BitVec.twoPow_eq, BitVec.getLsbD_twoPow,
    decide_eq_true (show idx % ELEM_BITS < 32 from Nat.mod_lt _ (by decide)), Bool.true_and]

theorem elemsTest_eq (bits : Elems) (idx : Nat) :
    elemsTest bits idx = (bits (idx / ELEM_BITS)).getLsbD (idx % ELEM_BITS) := by
  unfold elemsTest bitMask elemIdx
  rw [← BitVec.twoPow_eq, BitVec.and_twoPow]
  have hne : BitVec.twoPow 32 (idx % ELEM_BITS) ≠ 0#32 := by
    intro h
    have hbit := congrArg (BitVec.getLsbD · (idx % ELEM_BITS)) h
    simp only [BitVec.getLsbD_twoPow, BitVec.getLsbD_zero, decide_true, Bool.and_true,
      decide_eq_false_iff_not] at hbit
    exact hbit (Nat.mod_lt _ (by decide))
  cases (bits (idx / ELEM_BITS)).getLsbD (idx % ELEM_BITS) <;> simp [hne]

private theorem elemsTest_pack (b : Bitmap) (idx : Nat) :
    elemsTest (pack b) idx = bitmapTest b idx := by
  rw [elemsTest_eq, getLsbD_pack _ _ (idx % ELEM_BITS) (Nat.mod_lt _ (by decide)), Nat.div_add_mod]

private theorem unpack_pack (b : Bitmap) : unpack b.length (pack b) = b := by
  apply bitmap_ext
  · simp [unpack]
  · intro i hi
    have hi' : i < b.length := by simpa [unpack] using hi
    unfold unpack
    rw [bitmapTest, List.getElem?_map, List.getElem?_range hi', Option.map_some,
      Option.getD_some, elemsTest_pack]

private theorem getLsbD_lastMask {bitCnt j : Nat} (hj : j < 32) :
    (lastMask bitCnt).getLsbD j = decide (bitCnt % ELEM_BITS = 0 ∨ j < bitCnt % ELEM_BITS) := by
  unfold lastMask
  have hlt : bitCnt % ELEM_BITS < 32 := Nat.mod_lt _ (by decide)
  by_cases h0 : bitCnt % ELEM_BITS = 0
  · simp only [h0, ne_eq, not_true_eq_false, if_false, true_or, decide_true]
    rw [BitVec.neg_one_eq_allOnes, BitVec.getLsbD_allOnes, decide_eq_true hj]
  · have hmask : (1#32 <<< (bitCnt % ELEM_BITS)) - 1#32 =
        BitVec.ofNat 32 (2 ^ (bitCnt % ELEM_BITS) - 1) := by
      apply BitVec.eq_of_toNat_eq
      have hpow : 2 ^ (bitCnt % ELEM_BITS) < 2 ^ 32 := Nat.pow_lt_pow_right (by decide) hlt
      have hpos : 0 < 2 ^ (bitCnt % ELEM_BITS) := Nat.pow_pos (by decide)
      rw [← BitVec.twoPow_eq, BitVec.toNat_sub, BitVec.toNat_twoPow, BitVec.toNat_ofNat,
        Nat.mod_eq_of_lt hpow]
      simp only [BitVec.toNat_ofNat]
      omega
    simp only [ne_eq, h0, not_false_eq_true, if_true, false_or]
    rw [hmask, BitVec.getLsbD_ofNat, decide_eq_true hj, Bool.true_and,
      Nat.testBit_two_pow_sub_one]

private theorem elemsOfBytes_elemsToBytes (bits : Elems) :
    elemsOfBytes (elemsToBytes bits) = bits := by
  funext k
  unfold elemsOfBytes
  rw [leWord_congr (c := leByte (bits k).toNat), leWord_leByte (bits k).isLt,
    BitVec.ofNat_toNat, BitVec.setWidth_eq]
  intro j hj
  unfold elemsToBytes
  rw [show (4 * k + j) / 4 = k by omega, show (4 * k + j) % 4 = j by omega]

private theorem lt_elemCnt {bitCnt i : Nat} (h : bitCnt + (ELEM_BITS - 1) < 2 ^ 32)
    (hi : i < bitCnt) :
    elemIdx i < elemCnt bitCnt := by
  unfold elemIdx elemCnt ELEM_BITS at *
  rw [Nat.mod_eq_of_lt h]
  omega

private theorem elemsOfBytes_congr {bitCnt : Nat} {image image' : Bytes}
    (h : ∀ j < byteCnt bitCnt, image j = image' j) {k : Nat} (hk : k < elemCnt bitCnt) :
    elemsOfBytes image k = elemsOfBytes image' k := by
  unfold elemsOfBytes
  rw [leWord_congr]
  intro j hj
  apply h
  unfold byteCnt
  omega

/-- The bits that are loaded depend only on the bytes of the elements. -/
theorem unpack_maskLast_congr {bitCnt : Nat} {image image' : Bytes}
    (hcnt : bitCnt + (ELEM_BITS - 1) < 2 ^ 32)
    (h : ∀ j < byteCnt bitCnt, image j = image' j) :
    unpack bitCnt (maskLast bitCnt (elemsOfBytes image)) =
      unpack bitCnt (maskLast bitCnt (elemsOfBytes image')) := by
  apply List.map_congr_left
  intro i hi
  have hk : i / ELEM_BITS < elemCnt bitCnt := lt_elemCnt hcnt (List.mem_range.mp hi)
  rw [elemsTest_eq, elemsTest_eq]
  unfold maskLast
  rcases eq_or_ne (i / ELEM_BITS) (elemCnt bitCnt - 1) with hlast | hlast
  · rw [hlast, Function.update_self, Function.update_self, elemsOfBytes_congr h (by omega)]
  · rw [Function.update_of_ne hlast, Function.update_of_ne hlast, elemsOfBytes_congr h hk]

/-- Loading the stored bytes of a bitmap and masking the last element gives the bitmap back,
also if the last element is only partly in use. -/
theorem unpack_maskLast {b : Bitmap} {image : Bytes} (h : b.length + (ELEM_BITS - 1) < 2 ^ 32)
    (himage : ∀ j < byteCnt b.length, image j = elemsToBytes (pack b) j) :
    unpack b.length (maskLast b.length (elemsOfBytes image)) = b := by
  rw [unpack_maskLast_congr h himage, elemsOfBytes_elemsToBytes]
  conv_rhs => rw [← unpack_pack b]
  apply List.map_congr_left
  intro i hi
  rw [List.mem_range] at hi
  rw [elemsTest_eq, elemsTest_eq]
  unfold maskLast
  rcases eq_or_ne (i / ELEM_BITS) (elemCnt b.length - 1) with hlast | hlast
  · -- the masked element: bit `i` is one of those in use
    rw [hlast, Function.update_self, BitVec.getLsbD_and,
      getLsbD_lastMask (show i % ELEM_BITS < 32 from Nat.mod_lt _ (by decide)),
      decide_eq_true, Bool.and_true]
    unfold elemCnt at hlast
    rw [Nat.mod_eq_of_lt h] at hlast
    unfold ELEM_BITS at *
    omega
  · rw [Function.update_of_ne hlast]

/-- After masking, the elements are those that hold their bits: nothing else is left in them. -/
theorem pack_unpack_maskLast {bitCnt : Nat} (h : bitCnt + (ELEM_BITS - 1) < 2 ^ 32)
    (bits : Elems) {k : Nat} (hk : k < elemCnt bitCnt) :
    pack (unpack bitCnt (maskLast bitCnt bits)) k = maskLast bitCnt bits k := by
  apply BitVec.eq_of_getLsbD_eq
  intro j hj
  rw [getLsbD_pack _ _ _ hj]
  have hdiv : (ELEM_BITS * k + j) / ELEM_BITS = k := by
    unfold ELEM_BITS
    omega
  have hmod : (ELEM_BITS * k + j) % ELEM_BITS = j := by
    unfold ELEM_BITS
    omega
  rcases Nat.lt_or_ge (ELEM_BITS * k + j) bitCnt with hlt | hge
  · unfold unpack
    rw [bitmapTest, List.getElem?_map, List.getElem?_range hlt, Option.map_some,
      Option.getD_some, elemsTest_eq, hdiv, hmod]
  · -- an unused bit: it lies in the last element, which is only partly in use
    rw [bitmapTest_of_ge (by simpa [unpack] using hge)]
    unfold elemCnt at hk
    rw [Nat.mod_eq_of_lt h] at hk
    have hlast : k = elemCnt bitCnt - 1 := by
      unfold elemCnt
      rw [Nat.mod_eq_of_lt h]
      unfold ELEM_BITS at *
      omega
    unfold maskLast
    rw [hlast, Function.update_self, BitVec.getLsbD_and, getLsbD_lastMask hj, decide_eq_false,
      Bool.and_false]
    unfold ELEM_BITS at *
    omega

end Pintos.Lib

import Mathlib.Algebra.Group.Nat.Defs
import Mathlib.Algebra.Ring.Int.Defs
import Mathlib.Logic.Function.Basic

/-!
# Bytes in memory and on disk

A block of storage is the function from its addresses to its bytes. `memcpy` replaces a
range of it; a 32-bit word occupies four bytes, lowest first, as the i386 stores it.
-/

namespace Pintos.Lib

/-- Bytes by address. -/
abbrev Bytes := Nat → UInt8

/-- The storage after `n` bytes of `buffer` have been copied to address `a`. -/
def memcpy (dst : Bytes) (a n : Nat) (buffer : Bytes) : Bytes :=
  fun b => if a ≤ b ∧ b < a + n then buffer (b - a) else dst b

theorem memcpy_of_mem {dst buffer : Bytes} {a n b : Nat} (h : a ≤ b) (h' : b < a + n) :
    memcpy dst a n buffer b = buffer (b - a) := if_pos ⟨h, h'⟩

theorem memcpy_of_lt {dst buffer : Bytes} {a n b : Nat} (h : b < a) :
    memcpy dst a n buffer b = dst b := if_neg (by omega)

theorem memcpy_of_ge {dst buffer : Bytes} {a n b : Nat} (h : a + n ≤ b) :
    memcpy dst a n buffer b = dst b := if_neg (by omega)

@[simp] theorem memcpy_zero (dst : Bytes) (a : Nat) (buffer : Bytes) :
    memcpy dst a 0 buffer = dst := by
  funext b
  rcases Nat.lt_or_ge b a with h | h
  · rw [memcpy_of_lt h]
  · rw [memcpy_of_ge h]

theorem memcpy_memcpy_add (dst buffer : Bytes) (a n m : Nat) :
    memcpy (memcpy dst a n buffer) (a + n) m (fun j => buffer (n + j)) =
      memcpy dst a (n + m) buffer := by
  funext b
  rcases Nat.lt_or_ge b a with ha | ha
  · rw [memcpy_of_lt (by omega), memcpy_of_lt ha, memcpy_of_lt ha]
  rcases Nat.lt_or_ge b (a + n) with hn | hn
  · rw [memcpy_of_lt hn, memcpy_of_mem ha hn, memcpy_of_mem ha (by omega)]
  rcases Nat.lt_or_ge b (a + n + m) with hm | hm
  · rw [memcpy_of_mem hn hm, memcpy_of_mem ha (by omega)]
    apply congrArg
    omega
  · rw [memcpy_of_ge hm, memcpy_of_ge hn, memcpy_of_ge (by omega)]

/-- `DIV_ROUND_UP` of `size_t`, `lib/round.h:10`. -/
def divRoundUp (x step : Nat) : Nat := (x + (step - 1)) % 2 ^ 32 / step

/-- Byte `i` of a number, lowest first. -/
def leByte (n i : Nat) : UInt8 := UInt8.ofNat (n / 256 ^ i)

/-- The 32-bit word in the first four bytes. -/
def leWord (b : Bytes) : Nat :=
  (b 0).toNat + 256 * (b 1).toNat + 65536 * (b 2).toNat + 16777216 * (b 3).toNat

@[simp] theorem toNat_leByte (n i : Nat) : (leByte n i).toNat = n / 256 ^ i % 256 := by
  simp [leByte]

theorem leWord_lt (b : Bytes) : leWord b < 2 ^ 32 := by
  have h0 := (b 0).toNat_lt
  have h1 := (b 1).toNat_lt
  have h2 := (b 2).toNat_lt
  have h3 := (b 3).toNat_lt
  unfold leWord
  omega

theorem leWord_leByte {n : Nat} (h : n < 2 ^ 32) : leWord (leByte n) = n := by
  simp only [leWord, toNat_leByte]
  omega

theorem leWord_congr {b c : Bytes} (h : ∀ i < 4, b i = c i) : leWord b = leWord c := by
  unfold leWord
  rw [h 0 (by omega), h 1 (by omega), h 2 (by omega), h 3 (by omega)]

/-- The signed value of a 32-bit word. -/
def toInt32 (n : Nat) : Int := if n < 2 ^ 31 then n else n - 2 ^ 32

/-- The 32-bit word of a signed value, which wraps around. -/
def ofInt32 (x : Int) : Nat := (x % 2 ^ 32).toNat

end Pintos.Lib

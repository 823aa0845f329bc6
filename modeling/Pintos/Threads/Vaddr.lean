import Mathlib.Data.BitVec

/-!
# Virtual addresses

Source `threads/vaddr.h:17–66`, `threads/loader.h`. Addresses are 32-bit words and their
arithmetic wraps. Page rounding is stated once through the natural value of an address,
so that the loops over page ranges reduce to linear arithmetic.
-/

namespace Pintos.Threads

/-- A 32-bit virtual address; `void *` on the target. -/
abbrev Addr := BitVec 32

/-- Bytes in a page; `threads/vaddr.h:19`. -/
def PGSIZE : Nat := 4096

/-- Page offset bits; `threads/vaddr.h:20`. -/
def PGMASK : Addr := 0xfff#32

/-- Base of the kernel's address range; `threads/vaddr.h:54` with `LOADER_PHYS_BASE`. -/
def PHYS_BASE : Addr := 0xc0000000#32

/-- Offset within a page; `threads/vaddr.h:23`. -/
def pgOfs (va : Addr) : Addr := va &&& PGMASK

/-- Round down to a page boundary; `threads/vaddr.h:38`. -/
def pgRoundDown (va : Addr) : Addr := va &&& ~~~PGMASK

/-- A user virtual address lies below `PHYS_BASE`; `threads/vaddr.h:57–61`. -/
def isUserVaddr (va : Addr) : Bool := va < PHYS_BASE

theorem toNat_pgOfs (va : Addr) : (pgOfs va).toNat = va.toNat % 4096 := by
  have h := Nat.and_two_pow_sub_one_eq_mod va.toNat 12
  simpa [pgOfs, PGMASK] using h

theorem pgOfs_add_pgRoundDown (va : Addr) : pgOfs va + pgRoundDown va = va := by
  have hm : PGMASK ||| ~~~PGMASK = BitVec.allOnes 32 := by decide
  unfold pgOfs pgRoundDown
  rw [BitVec.add_eq_or_of_and_eq_zero]
  · rw [← BitVec.and_or_distrib_left, hm, BitVec.and_allOnes]
  · ext i hi
    simp only [BitVec.getElem_and, BitVec.getElem_not, BitVec.getElem_zero]
    grind

theorem pgOfs_pgRoundDown (va : Addr) : pgOfs (pgRoundDown va) = 0#32 := by
  have hm : ~~~PGMASK &&& PGMASK = 0#32 := by decide
  unfold pgOfs pgRoundDown
  rw [BitVec.and_assoc, hm, BitVec.and_zero]

theorem toNat_pgRoundDown (va : Addr) :
    (pgRoundDown va).toNat = va.toNat / 4096 * 4096 := by
  have hs := congrArg BitVec.toNat (pgOfs_add_pgRoundDown va)
  rw [BitVec.toNat_add, toNat_pgOfs] at hs
  have hle : (pgRoundDown va).toNat ≤ va.toNat := by
    unfold pgRoundDown
    rw [BitVec.toNat_and]
    exact Nat.and_le_left
  have hz : (pgRoundDown va).toNat % 4096 = 0 := by
    rw [← toNat_pgOfs, pgOfs_pgRoundDown]
    rfl
  have hlt := va.isLt
  omega

theorem pgRoundDown_pgRoundDown (va : Addr) :
    pgRoundDown (pgRoundDown va) = pgRoundDown va := by
  apply BitVec.eq_of_toNat_eq
  rw [toNat_pgRoundDown, toNat_pgRoundDown]
  omega

theorem pgRoundDown_of_pgOfs_eq_zero {va : Addr} (h : pgOfs va = 0#32) :
    pgRoundDown va = va := by
  have hs := pgOfs_add_pgRoundDown va
  rw [h] at hs
  simpa using hs

/-- User addresses are the ones whose natural value is below that of `PHYS_BASE`. -/
theorem isUserVaddr_iff (va : Addr) : isUserVaddr va = true ↔ va.toNat < 0xc0000000 := by
  simp [isUserVaddr, PHYS_BASE, BitVec.lt_def]

/-- `PHYS_BASE` is a page boundary, so a page is user memory exactly when its bytes are. -/
theorem isUserVaddr_pgRoundDown (va : Addr) :
    isUserVaddr (pgRoundDown va) = isUserVaddr va := by
  apply Bool.eq_iff_iff.mpr
  rw [isUserVaddr_iff, isUserVaddr_iff, toNat_pgRoundDown]
  omega

/-- An address starts a page if its number is a multiple of the page size. -/
theorem pgOfs_eq_zero_iff (va : Addr) : pgOfs va = 0 ↔ va.toNat % 4096 = 0 := by
  rw [← toNat_pgOfs]
  exact ⟨fun h => by rw [h]; rfl, fun h => BitVec.eq_of_toNat_eq h⟩

end Pintos.Threads

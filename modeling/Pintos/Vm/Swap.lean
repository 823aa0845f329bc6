import Mathlib.Data.List.FinRange
import Pintos.Vm.State

/-!
# Swap slots

Allocation of slots in the swap bitmap, and page transfers sector by sector. A slot is named
by its first sector. Source `vm/swap.c:1–67`.
-/

namespace Pintos.Vm

open Pintos.Threads Pintos.Userprog Pintos.Lib Pintos.Filesys

/-- Sectors in a page, `vm/swap.c:7`. -/
def SECTORS_PER_PAGE : Nat := PGSIZE / BLOCK_SECTOR_SIZE

/-- The bytes of a page that go to its `i`-th sector. -/
def pageSector (page : PageData) (i : Fin SECTORS_PER_PAGE) : SectorData := fun j =>
  page ⟨i.val * BLOCK_SECTOR_SIZE + j.val, by
    have := i.isLt; have := j.isLt
    simp only [SECTORS_PER_PAGE, PGSIZE, BLOCK_SECTOR_SIZE] at *
    omega⟩

/-- The `block_write` loop of `swap_write`, `vm/swap.c:57–58`. -/
def writeSectors (device : Nat → SectorData) (slot : Nat) (page : PageData) : Nat → SectorData :=
  (List.finRange SECTORS_PER_PAGE).foldl
    (fun d i => Function.update d (slot + i.val) (pageSector page i)) device

/-- The page the `block_read` loop of `swap_read` fills, `vm/swap.c:66–67`: byte `j` comes
from sector `j / BLOCK_SECTOR_SIZE`. -/
def readSectors (device : Nat → SectorData) (slot : Nat) : PageData := fun j =>
  device (slot + j.val / BLOCK_SECTOR_SIZE) ⟨j.val % BLOCK_SECTOR_SIZE, Nat.mod_lt _ (by decide)⟩

/-- `swap_alloc`, called for entry `i`, `vm/swap.c:30–40`. -/
def swapAlloc (i : SpteAddr) (s : VmState) : Option (Nat × VmState) :=
  match bitmapScanAndFlip s.swapBitmap 0 1 false with
  | none => none
  | some (n, bitmap) =>
    let slot := n * SECTORS_PER_PAGE
    some (slot, { s with swapBitmap := bitmap, swapLog := .alloc i slot :: s.swapLog })

/-- The sectors of a slot exist and start at a page boundary: the assertion of
`vm/swap.c:47,56,65` together with the bounds checks of `bitmap_set` and of the device. -/
def validSlot (s : VmState) (slot : Nat) : Bool :=
  slot % SECTORS_PER_PAGE == 0 && decide (slot / SECTORS_PER_PAGE < s.swapBitmap.length)

/-- `swap_free`, `vm/swap.c:42–50`. -/
def swapFree (slot : Nat) (s : VmState) : Option VmState :=
  if validSlot s slot then
    some { s with
      swapBitmap := bitmapSet s.swapBitmap (slot / SECTORS_PER_PAGE) false
      swapLog := .free slot :: s.swapLog }
  else none

/-- `swap_write` of the page of memory `k`, `vm/swap.c:52–59`. -/
def swapWrite (slot : Nat) (k : KPage) (s : VmState) : Option VmState :=
  if validSlot s slot then some { s with swapDevice := writeSectors s.swapDevice slot (s.mem k) }
  else none

/-- `swap_read` into a page, `vm/swap.c:61–68`. -/
def swapRead (slot : Nat) (s : VmState) : Option PageData :=
  if validSlot s slot then some (readSectors s.swapDevice slot) else none

private theorem foldl_update_of_not_mem {slot n : Nat} {f : Fin n → SectorData} (l : List (Fin n))
    (device : Nat → SectorData) {k : Nat} (h : ∀ i ∈ l, slot + i.val ≠ k) :
    l.foldl (fun d i => Function.update d (slot + i.val) (f i)) device k = device k := by
  induction l generalizing device with
  | nil => rfl
  | cons x l ih =>
    rw [List.foldl_cons, ih _ fun i hi => h i (List.mem_cons_of_mem _ hi)]
    exact Function.update_of_ne (h x List.mem_cons_self).symm _ _

private theorem foldl_update_of_mem {slot n : Nat} (f : Fin n → SectorData) (l : List (Fin n))
    (device : Nat → SectorData) {i : Fin n} (h : i ∈ l) :
    l.foldl (fun d i => Function.update d (slot + i.val) (f i)) device (slot + i.val) = f i := by
  induction l generalizing device with
  | nil => exact absurd h List.not_mem_nil
  | cons x l ih =>
    rw [List.foldl_cons]
    by_cases hl : i ∈ l
    · exact ih _ hl
    · have hx : i = x := (List.mem_cons.mp h).resolve_right hl
      subst hx
      rw [foldl_update_of_not_mem]
      · exact Function.update_self ..
      · intro y hy hyi
        exact hl (Fin.ext (by omega : y.val = i.val) ▸ hy)

theorem readSectors_writeSectors (device : Nat → SectorData) (slot : Nat) (page : PageData) :
    readSectors (writeSectors device slot page) slot = page := by
  funext j
  have hj := j.isLt
  have hi : j.val / BLOCK_SECTOR_SIZE < SECTORS_PER_PAGE := by
    simp only [SECTORS_PER_PAGE, PGSIZE, BLOCK_SECTOR_SIZE] at *
    omega
  have hread : writeSectors device slot page (slot + j.val / BLOCK_SECTOR_SIZE) =
      pageSector page ⟨j.val / BLOCK_SECTOR_SIZE, hi⟩ :=
    foldl_update_of_mem (pageSector page) _ device (List.mem_finRange ⟨_, hi⟩)
  simp only [readSectors, hread, pageSector, Nat.div_add_mod']

theorem readSectors_writeSectors_of_ne (device : Nat → SectorData) {slot slot' : Nat}
    (page : PageData) (hs : slot % SECTORS_PER_PAGE = 0) (hs' : slot' % SECTORS_PER_PAGE = 0)
    (hne : slot' ≠ slot) :
    readSectors (writeSectors device slot page) slot' = readSectors device slot' := by
  funext j
  have hj := j.isLt
  simp only [readSectors, writeSectors]
  rw [foldl_update_of_not_mem]
  intro i _
  have := i.isLt
  simp only [SECTORS_PER_PAGE, PGSIZE, BLOCK_SECTOR_SIZE] at *
  omega

/-- What a successful `swap_alloc` returns: the first sector of a slot whose bit was clear. -/
theorem swapAlloc_some {i : SpteAddr} {s s' : VmState} {slot : Nat}
    (h : swapAlloc i s = some (slot, s')) :
    ∃ n, slot = n * SECTORS_PER_PAGE ∧ n < s.swapBitmap.length ∧
      bitmapTest s.swapBitmap n = false ∧
      s' = { s with
        swapBitmap := bitmapSet s.swapBitmap n true
        swapLog := .alloc i slot :: s.swapLog } := by
  unfold swapAlloc at h
  split at h
  · cases h
  · next n bitmap hscan =>
    obtain ⟨hn, hfree, rfl⟩ := bitmapScanAndFlip_one hscan
    cases h
    exact ⟨n, rfl, hn, hfree, rfl⟩

end Pintos.Vm

import Pintos.Filesys.Disk
import Pintos.Lib.PackedBitmap

/-!
# The free map and the table of open inodes

The functions of the file system that allocate sectors and hand out handles: the free map
with the file that stores it, `open_inodes` with its open counts and delayed deletion, and files.
Source `filesys/free-map.c:1–85`, `filesys/inode.c:72–195,330–338`,
`filesys/file.c:17–65,128–141`.
-/

namespace Pintos.Filesys.Disk

open Pintos.Lib

/-- Sector of the free map's inode, `filesys/filesys.h:9`. -/
def FREE_MAP_SECTOR : Nat := 0

/-- Sector of the root directory's inode, `filesys/filesys.h:10`. -/
def ROOT_DIR_SECTOR : Nat := 1

/-- `bitmap_create`; no bytes are never allocated, `lib/kernel/bitmap.c:78–95`. -/
def bitmapCreate (bitCnt : Nat) (s : Fs) : Option Bitmap × Fs :=
  match s.malloc with
  | (none, s) => (none, s)
  | (some _, s) =>
    if byteCnt bitCnt = 0 then (if bitCnt = 0 then some [] else none, s)
    else (s.malloc.1.map fun _ => List.replicate bitCnt false, s.malloc.2)

/-- `bitmap_write`, `lib/kernel/bitmap.c:355–360`. -/
def bitmapWrite (b : Bitmap) (f : FileAddr) (s : Fs) : Option (Bool × Fs) := do
  let size := byteCnt b.length
  let (n, s) ← fileWriteAt f (elemsToBytes (pack b)) size 0 s
  some (n == size, s)

/-- `bitmap_read`, `lib/kernel/bitmap.c:340–351`. -/
def bitmapRead (b : Bitmap) (f : FileAddr) (s : Fs) : Option ((Bool × Bitmap) × Fs) := do
  if 0 < b.length then
    let size := byteCnt b.length
    let ((n, image), s) ← fileReadAt f (elemsToBytes (pack b)) size 0 s
    some ((n == size, unpack b.length (maskLast b.length (elemsOfBytes image))), s)
  else some ((true, b), s)

/-- `free_map_init`, `filesys/free-map.c:12–20`. -/
def freeMapInit (s : Fs) : Option Fs :=
  let (b, s) := bitmapCreate s.size s
  b.map fun b =>
    { s with freeMap := bitmapSet (bitmapSet b FREE_MAP_SECTOR true) ROOT_DIR_SECTOR true }

/-- `free_map_allocate`: the first of `cnt` consecutive free sectors, taken back if the free
map's file cannot be written, `filesys/free-map.c:27–41`. -/
def freeMapAllocate (cnt : Nat) (s : Fs) : Option (Option Nat × Fs) :=
  match bitmapScanAndFlip s.freeMap 0 cnt false with
  | none => some (none, s)
  | some (sector, b) =>
    let s := { s with freeMap := b }
    match s.freeMapFile with
    | none => some (some sector, s)
    | some f => do
      let (ok, s) ← bitmapWrite s.freeMap f s
      if ok then some (some sector, s)
      else some (none, { s with freeMap := bitmapSetMultiple s.freeMap sector cnt false })

/-- `free_map_release`, which asserts that the sectors are in use,
`filesys/free-map.c:44–50`. -/
def freeMapRelease (sector cnt : Nat) (s : Fs) : Option Fs :=
  if sector + cnt ≤ s.freeMap.length ∧ bitmapAll s.freeMap sector cnt then do
    let s := { s with freeMap := bitmapSetMultiple s.freeMap sector cnt false }
    let f ← s.freeMapFile
    let (_, s) ← bitmapWrite s.freeMap f s
    some s
  else none

/-- `inode_reopen`, `filesys/inode.c:144–149`. -/
def inodeReopen (i : InodeAddr) (s : Fs) : Option Fs := do
  let inode ← s.getInode i
  some (s.setInode i { inode with openCnt := inode.openCnt + 1 })

/-- `inode_open`, `filesys/inode.c:111–141`. -/
def inodeOpen (sector : Nat) (s : Fs) : Option (Option InodeAddr × Fs) :=
  match s.openInodes.find? fun i => (s.inode i).sector == sector with
  | some i => do
    let s ← inodeReopen i s
    some (some i, s)
  | none =>
    match s.malloc with
    | (none, s) => some (none, s)
    | (some i, s) => do
      let data ← blockRead s.size s.device sector
      some (some i, s.addInode i ⟨sector, 1, false, 0, InodeDisk.ofBytes data⟩)

/-- `inode_close`: the last opener of a removed inode frees its sectors,
`filesys/inode.c:161–186`. -/
def inodeClose (i : Option InodeAddr) (s : Fs) : Option Fs :=
  match i with
  | none => some s
  | some i => do
    let inode ← s.getInode i
    let s := s.setInode i { inode with openCnt := inode.openCnt - 1 }
    if inode.openCnt - 1 = 0 then
      let s := { s with openInodes := s.openInodes.erase i }
      if inode.removed then
        let s ← freeMapRelease inode.sector 1 s
        freeMapRelease inode.data.start (bytesToSectors inode.data.length) s
      else some s
    else some s

/-- `inode_allow_write`, `filesys/inode.c:332–338`. -/
def inodeAllowWrite (i : InodeAddr) (s : Fs) : Option Fs := do
  let inode ← s.getInode i
  if 0 < inode.denyWriteCnt ∧ inode.denyWriteCnt ≤ inode.openCnt then
    some (s.setInode i { inode with denyWriteCnt := inode.denyWriteCnt - 1 })
  else none

/-- `file_open`, which owns the inode from then on and closes it if it fails,
`filesys/file.c:17–34`. -/
def fileOpen (i : Option InodeAddr) (s : Fs) : Option (Option FileAddr × Fs) :=
  match i, s.malloc with
  | some i, (some f, s) => some (some f, s.addFile f ⟨i, 0, false⟩)
  | i, (_, s) => do
    let s ← inodeClose i s
    some (none, s)

/-- `file_allow_write`, `filesys/file.c:132–141`. -/
def fileAllowWrite (f : FileAddr) (s : Fs) : Option Fs := do
  let file ← s.getFile f
  if file.denyWrite then inodeAllowWrite file.inode (s.setFile f { file with denyWrite := false })
  else some s

/-- `file_close`, `filesys/file.c:45–54`. -/
def fileClose (f : Option FileAddr) (s : Fs) : Option Fs :=
  match f with
  | none => some s
  | some f => do
    let s ← fileAllowWrite f s
    let s ← inodeClose (some (s.file f).inode) s
    some { s with files := s.files.erase f }

/-- `free_map_open`, `filesys/free-map.c:53–61`. -/
def freeMapOpen (s : Fs) : Option Fs := do
  let (i, s) ← inodeOpen FREE_MAP_SECTOR s
  let (f, s) ← fileOpen i s
  let s := { s with freeMapFile := f }
  let f ← f
  let ((ok, b), s) ← bitmapRead s.freeMap f s
  if ok then some { s with freeMap := b } else none

/-- `free_map_close`, `filesys/free-map.c:64–68`. -/
def freeMapClose (s : Fs) : Option Fs := fileClose s.freeMapFile s

section Calls

variable {s t : Fs} {f : FileAddr} {cnt sector : Nat}

/-- The allocator's answers to requests for bounce buffers stay favourable. -/
def Steady (bounce bounce' : Nat → Bool) : Prop :=
  (∀ n, bounce n = true) → ∀ n, bounce' n = true

/-- Writing the map changes the device and takes allocator answers, nothing else. -/
theorem bitmapWrite_frame {b : Bitmap} {ok : Bool} (h : bitmapWrite b f s = some (ok, t)) :
    ∃ device bounce, Steady s.bounce bounce ∧
      t = { s with device := device, bounce := bounce } := by
  obtain ⟨⟨n, u⟩, hwrite, h⟩ := Option.bind_eq_some_iff.mp h
  cases h
  obtain ⟨file, -, hwrite⟩ := Option.bind_eq_some_iff.mp hwrite
  obtain ⟨inode, -, hwrite⟩ := Option.bind_eq_some_iff.mp hwrite
  split at hwrite
  · cases hwrite
    exact ⟨_, _, fun hb => hb, rfl⟩
  · obtain ⟨r, -, hwrite⟩ := Option.bind_eq_some_iff.mp hwrite
    cases hwrite
    exact ⟨_, _, fun hb n => hb (n + 1), rfl⟩

/-- The data of an inode holds the map `b`. -/
structure InodeDisk.Stores (data : InodeDisk) (device : Bytes) (b : Bitmap) : Prop where
  room : byteCnt b.length ≤ data.length.toNat
  bytes : ∀ j < byteCnt b.length, device (data.address j) = elemsToBytes (pack b) j

theorem freeMapAllocate_of_none (h : bitmapScan s.freeMap 0 cnt false = none) :
    freeMapAllocate cnt s = some (none, s) := by
  unfold freeMapAllocate bitmapScanAndFlip
  rw [h]
  rfl

/-- `free_map_allocate` where one is found and the map's file is open. -/
theorem freeMapAllocate_of_some (hf : s.freeMapFile = some f)
    (h : bitmapScan s.freeMap 0 cnt false = some sector) :
    freeMapAllocate cnt s =
      let b := bitmapSetMultiple s.freeMap sector cnt true
      (bitmapWrite b f { s with freeMap := b }).map fun r =>
        if r.1 then (some sector, r.2)
        else (none, { r.2 with freeMap := bitmapSetMultiple r.2.freeMap sector cnt false }) := by
  unfold freeMapAllocate bitmapScanAndFlip
  rw [h]
  simp only [Option.map_some, Bool.not_false]
  split
  · next hnone =>
    rw [hf] at hnone
    cases hnone
  · next f' hsome =>
    rw [hf] at hsome
    cases hsome
    cases bitmapWrite (bitmapSetMultiple s.freeMap sector cnt true) f
      { s with freeMap := bitmapSetMultiple s.freeMap sector cnt true } with
    | none => rfl
    | some r =>
      simp only [Option.bind_eq_bind, Option.bind_some, Option.map_some]
      split <;> rfl

/-- `free_map_allocate` where one is found before the map's file is open. -/
theorem freeMapAllocate_of_noFile (hf : s.freeMapFile = none)
    (h : bitmapScan s.freeMap 0 cnt false = some sector) :
    freeMapAllocate cnt s =
      some (some sector, { s with freeMap := bitmapSetMultiple s.freeMap sector cnt true }) := by
  unfold freeMapAllocate bitmapScanAndFlip
  rw [h]
  simp only [Option.map_some, Bool.not_false]
  split
  · rfl
  · next f' hsome =>
    rw [hf] at hsome
    cases hsome

theorem freeMapRelease_eq (hf : s.freeMapFile = some f) (hle : sector + cnt ≤ s.freeMap.length)
    (hbits : ∀ j < cnt, bitmapTest s.freeMap (sector + j) = true) :
    freeMapRelease sector cnt s =
      let b := bitmapSetMultiple s.freeMap sector cnt false
      (bitmapWrite b f { s with freeMap := b }).map Prod.snd := by
  unfold freeMapRelease
  rw [if_pos ⟨hle, (bitmapAll_iff _ _ _).mpr hbits⟩]
  have hfile : ∀ g : FileAddr → Option Fs, s.freeMapFile.bind g = g f := by
    intro g
    rw [hf]
    rfl
  simp only [Option.bind_eq_bind]
  rw [hfile]
  rw [Option.map_eq_bind]
  rfl

theorem freeMapRelease_some (h : freeMapRelease sector cnt s = some t) :
    sector + cnt ≤ s.freeMap.length ∧ ∀ j < cnt, bitmapTest s.freeMap (sector + j) = true := by
  unfold freeMapRelease at h
  split at h
  · next hc => exact ⟨hc.1, (bitmapAll_iff _ _ _).mp hc.2⟩
  · cases h

end Calls

end Pintos.Filesys.Disk

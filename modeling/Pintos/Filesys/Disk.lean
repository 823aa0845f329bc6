import Mathlib.Algebra.Group.Nat.Defs
import Mathlib.Algebra.Ring.Int.Defs
import Pintos.Filesys.Inode
import Pintos.Lib.Bitmap
import Pintos.Lib.Bytes

/-!
# The file system on its block device

The file system at the level of sectors: the device as its bytes, inodes as they are stored
in a sector, the table of open inodes with the files that hold them, and the transfers
`inode_read_at` and `inode_write_at` cut into sectors. A run that ends in a kernel panic has no
result.
Source `filesys/inode.c:10–70,197–345`, `devices/block.c:95–140`,
`filesys/file.c:10–17,67–110`.
-/

namespace Pintos.Filesys.Disk

open Pintos.Lib

/-- Identifies an inode, `filesys/inode.c:11`. -/
def INODE_MAGIC : Nat := 0x494e4f44

/-- The on-disk inode; its unused words are zero, `filesys/inode.c:15–21`. -/
structure InodeDisk where
  start : Nat
  length : Int
  magic : Nat
  deriving DecidableEq, Repr

namespace InodeDisk

/-- The sector that stores an inode. -/
def toBytes (d : InodeDisk) : Bytes := fun j =>
  if j < 4 then leByte d.start j
  else if j < 8 then leByte (ofInt32 d.length) (j - 4)
  else if j < 12 then leByte d.magic (j - 8)
  else 0

/-- The inode that a sector stores. -/
def ofBytes (b : Bytes) : InodeDisk where
  start := leWord b
  length := toInt32 (leWord fun j => b (4 + j))
  magic := leWord fun j => b (8 + j)

theorem ofBytes_congr {b c : Bytes} (h : ∀ j < 12, b j = c j) : ofBytes b = ofBytes c := by
  unfold ofBytes
  rw [leWord_congr fun j hj => h j (by omega),
    leWord_congr (b := fun j => b (4 + j)) fun j hj => h (4 + j) (by omega),
    leWord_congr (b := fun j => b (8 + j)) fun j hj => h (8 + j) (by omega)]

end InodeDisk

/-- `bytes_to_sectors`: the addition wraps in 32 bits, `filesys/inode.c:25–29`. -/
def bytesToSectors (size : Int) : Nat :=
  ofInt32 ((toInt32 (ofInt32 (size + (BLOCK_SECTOR_SIZE - 1)))).tdiv BLOCK_SECTOR_SIZE)

/-- Address of a `struct inode`. -/
abbrev InodeAddr := Nat

/-- Address of a `struct file`. -/
abbrev FileAddr := Nat

/-- The in-memory inode, `filesys/inode.c:32–40`. -/
structure Inode where
  sector : Nat
  openCnt : Int
  removed : Bool
  denyWriteCnt : Int
  data : InodeDisk
  deriving DecidableEq, Repr

/-- An open file, `filesys/file.c:7–12`. -/
structure File where
  inode : InodeAddr
  pos : Int
  denyWrite : Bool
  deriving DecidableEq, Repr

/-- The file system: the device and its size in sectors, the free map, the list `open_inodes`
and the live handles. `heap` and `bounce` are the answers `malloc` will give, the latter to
requests for a bounce buffer. -/
structure Fs where
  size : Nat
  device : Bytes
  freeMap : Bitmap
  freeMapFile : Option FileAddr
  openInodes : List InodeAddr
  inode : InodeAddr → Inode
  files : List FileAddr
  file : FileAddr → File
  heap : Nat → Option Nat
  bounce : Nat → Bool

namespace Fs

/-- `malloc` of a structure; an address in use is never returned. -/
def malloc (s : Fs) : Option Nat × Fs :=
  ((s.heap 0).filter fun a => decide (a ∉ s.openInodes ∧ a ∉ s.files),
    { s with heap := fun n => s.heap (n + 1) })

/-- An answer that is not in use is the address `malloc` returns. -/
theorem malloc_eq {s : Fs} {a : Nat} (h : s.heap 0 = some a) (hi : a ∉ s.openInodes)
    (hf : a ∉ s.files) :
    s.malloc = (some a, { s with heap := fun n => s.heap (n + 1) }) := by
  unfold malloc
  rw [h, Option.filter_some, if_pos (decide_eq_true ⟨hi, hf⟩)]

theorem malloc_some {s t : Fs} {a : Nat} (h : s.malloc = (some a, t)) :
    s.heap 0 = some a ∧ a ∉ s.openInodes ∧ a ∉ s.files ∧
      t = { s with heap := fun n => s.heap (n + 1) } := by
  obtain ⟨ha, ht⟩ := Prod.mk.inj h
  obtain ⟨ha, hfree⟩ := Option.filter_eq_some_iff.mp ha
  obtain ⟨hi, hf⟩ := of_decide_eq_true hfree
  exact ⟨ha, hi, hf, ht.symm⟩

/-- `malloc` of a bounce buffer. -/
def mallocBounce (s : Fs) : Bool × Fs :=
  (s.bounce 0, { s with bounce := fun n => s.bounce (n + 1) })

/-- The inode at an address; an address that holds none is not followed. -/
def getInode (s : Fs) (i : InodeAddr) : Option Inode :=
  if i ∈ s.openInodes then some (s.inode i) else none

/-- The inode stored in a sector. -/
def diskInode (s : Fs) (sector : Nat) : InodeDisk :=
  InodeDisk.ofBytes fun j => s.device (BLOCK_SECTOR_SIZE * sector + j)

/-- The file at an address. -/
def getFile (s : Fs) (f : FileAddr) : Option File :=
  if f ∈ s.files then some (s.file f) else none

/-- Store an inode's fields. -/
def setInode (s : Fs) (i : InodeAddr) (inode : Inode) : Fs :=
  { s with inode := Function.update s.inode i inode }

/-- Store a file's fields. -/
def setFile (s : Fs) (f : FileAddr) (file : File) : Fs :=
  { s with file := Function.update s.file f file }

/-- A new inode enters `open_inodes` at the front. -/
def addInode (s : Fs) (i : InodeAddr) (inode : Inode) : Fs :=
  { s with openInodes := i :: s.openInodes, inode := Function.update s.inode i inode }

/-- A new file becomes live. -/
def addFile (s : Fs) (f : FileAddr) (file : File) : Fs :=
  { s with files := f :: s.files, file := Function.update s.file f file }

end Fs

/-- `block_read`, which panics past the end of the device, `devices/block.c:99–115`. -/
def blockRead (size : Nat) (device : Bytes) (sector : Nat) : Option Bytes :=
  if sector < size then some fun j => device (BLOCK_SECTOR_SIZE * sector + j) else none

/-- `block_write`, `devices/block.c:121–128`. -/
def blockWrite (size : Nat) (device : Bytes) (sector : Nat) (buffer : Bytes) : Option Bytes :=
  if sector < size then
    some (memcpy device (BLOCK_SECTOR_SIZE * sector) BLOCK_SECTOR_SIZE buffer)
  else none

/-- `byte_to_sector`, `filesys/inode.c:46–54`. -/
def byteToSector (data : InodeDisk) (pos : Nat) : Nat :=
  if pos < data.length then (data.start + pos / BLOCK_SECTOR_SIZE) % 2 ^ 32 else 2 ^ 32 - 1

/-- One round of `inode_read_at`: `cnt` bytes at `offset` to byte `done` of the buffer,
`filesys/inode.c:208–239`. -/
def readChunk (size : Nat) (device : Bytes) (data : InodeDisk) (offset done cnt : Nat)
    (buffer : Bytes) : Option (Bool × Bytes) := do
  let sectorIdx := byteToSector data offset
  let sectorOfs := offset % BLOCK_SECTOR_SIZE
  if sectorOfs = 0 ∧ cnt = BLOCK_SECTOR_SIZE then
    let sector ← blockRead size device sectorIdx
    some (true, memcpy buffer done BLOCK_SECTOR_SIZE sector)
  else
    let bounce ← blockRead size device sectorIdx
    some (true, memcpy buffer done cnt fun j => bounce (sectorOfs + j))

/-- One round of `inode_write_at`: `cnt` bytes from byte `done` of the buffer to `offset`. A
partial sector is read first, `filesys/inode.c:269–307`. -/
def writeChunk (size : Nat) (data : InodeDisk) (buffer : Bytes) (offset done cnt : Nat)
    (device : Bytes) : Option (Bool × Bytes) := do
  let sectorIdx := byteToSector data offset
  let sectorOfs := offset % BLOCK_SECTOR_SIZE
  if sectorOfs = 0 ∧ cnt = BLOCK_SECTOR_SIZE then
    let device ← blockWrite size device sectorIdx fun j => buffer (done + j)
    some (true, device)
  else
    let bounce ←
      if 0 < sectorOfs ∨ cnt < BLOCK_SECTOR_SIZE - sectorOfs then blockRead size device sectorIdx
      else some fun _ => 0
    let device ← blockWrite size device sectorIdx
      (memcpy bounce sectorOfs cnt fun j => buffer (done + j))
    some (true, device)

/-- `inode_read_at`: the number of bytes read and the buffer they are read into,
`filesys/inode.c:200–250`. -/
def inodeReadAt (i : InodeAddr) (buffer : Bytes) (size : Int) (offset : Nat) (s : Fs) :
    Option ((Nat × Bytes) × Fs) := do
  let inode ← s.getInode i
  let (n, buffer) ← transferLoop inode.data.length.toNat s.mallocBounce.1
    (readChunk s.size s.device inode.data) size.toNat size.toNat offset 0 buffer
  some ((n.getD 0, buffer), s.mallocBounce.2)

/-- `inode_write_at`, `filesys/inode.c:257–318`. -/
def inodeWriteAt (i : InodeAddr) (buffer : Bytes) (size : Int) (offset : Nat) (s : Fs) :
    Option (Nat × Fs) := do
  let inode ← s.getInode i
  if inode.denyWriteCnt ≠ 0 then some (0, s)
  else
    let (n, device) ← transferLoop inode.data.length.toNat s.mallocBounce.1
      (writeChunk s.size inode.data buffer) size.toNat size.toNat offset 0 s.device
    some (n.getD 0, { s.mallocBounce.2 with device := device })

/-- `file_read_at`, `filesys/file.c:81–85`. -/
def fileReadAt (f : FileAddr) (buffer : Bytes) (size : Int) (fileOfs : Nat) (s : Fs) :
    Option ((Nat × Bytes) × Fs) := do
  let file ← s.getFile f
  inodeReadAt file.inode buffer size fileOfs s

/-- `file_write_at`, `filesys/file.c:107–112`. -/
def fileWriteAt (f : FileAddr) (buffer : Bytes) (size : Int) (fileOfs : Nat) (s : Fs) :
    Option (Nat × Fs) := do
  let file ← s.getFile f
  inodeWriteAt file.inode buffer size fileOfs s

/-- The data of an inode lies in contiguous sectors of the device. -/
structure InodeDisk.Fits (d : InodeDisk) (size : Nat) : Prop where
  size_le : size ≤ 2 ^ 32
  data_le : BLOCK_SECTOR_SIZE * d.start + d.length.toNat ≤ BLOCK_SECTOR_SIZE * size

/-- Where byte `o` of an inode's data lies on the device. -/
def InodeDisk.address (d : InodeDisk) (o : Nat) : Nat := BLOCK_SECTOR_SIZE * d.start + o

theorem InodeDisk.address_add (d : InodeDisk) (o k : Nat) :
    d.address o + k = d.address (o + k) := Nat.add_assoc _ _ _

section Chunks

variable {size : Nat} {device buffer : Bytes} {d : InodeDisk} {offset done cnt : Nat}

/-- A byte inside the inode's length lies in a sector of the device. -/
theorem byteToSector_eq (h : d.Fits size) (ho : offset < d.length.toNat) :
    byteToSector d offset = d.start + offset / BLOCK_SECTOR_SIZE ∧
      d.start + offset / BLOCK_SECTOR_SIZE < size := by
  have hle := h.data_le
  have hsize := h.size_le
  have hsector : d.start + offset / BLOCK_SECTOR_SIZE < size := by
    unfold BLOCK_SECTOR_SIZE at *
    omega
  refine ⟨?_, hsector⟩
  unfold byteToSector
  rw [if_pos (by omega), Nat.mod_eq_of_lt (by omega)]

private theorem address_split (d : InodeDisk) (o j : Nat) :
    BLOCK_SECTOR_SIZE * (d.start + o / BLOCK_SECTOR_SIZE) + (o % BLOCK_SECTOR_SIZE + j) =
      d.address o + j := by
  have := Nat.div_add_mod o BLOCK_SECTOR_SIZE
  unfold InodeDisk.address BLOCK_SECTOR_SIZE at *
  omega

/-- One round of a read delivers the bytes of the file, full sector or not. -/
theorem readChunk_eq (h : d.Fits size) (ho : offset < d.length.toNat) :
    readChunk size device d offset done cnt buffer =
      some (true, memcpy buffer done cnt fun j => device (d.address offset + j)) := by
  obtain ⟨hsector, hlt⟩ := byteToSector_eq h ho
  have hread : blockRead size device (byteToSector d offset) = some fun j =>
      device (BLOCK_SECTOR_SIZE * (d.start + offset / BLOCK_SECTOR_SIZE) + j) := by
    rw [hsector, blockRead, if_pos hlt]
  simp only [readChunk, hread, Option.bind_eq_bind, Option.bind_some, address_split]
  split
  · next hfull =>
    obtain ⟨hofs, hcnt⟩ := hfull
    have hsplit := address_split d offset
    simp only [hofs, Nat.zero_add] at hsplit
    simp only [hsplit, hcnt]
  · rfl

/-- A sector rewritten with `cnt` of its bytes replaced has just these replaced. -/
private theorem memcpy_sector (device buffer : Bytes) (a ofs cnt : Nat)
    (hcnt : ofs + cnt ≤ BLOCK_SECTOR_SIZE) :
    memcpy device a BLOCK_SECTOR_SIZE (memcpy (fun j => device (a + j)) ofs cnt buffer) =
      memcpy device (a + ofs) cnt buffer := by
  funext b
  rcases Nat.lt_or_ge b a with ha | ha
  · rw [memcpy_of_lt ha, memcpy_of_lt (by omega)]
  rcases Nat.lt_or_ge b (a + BLOCK_SECTOR_SIZE) with hs | hs
  · rw [memcpy_of_mem ha hs]
    rcases Nat.lt_or_ge b (a + ofs) with ho | ho
    · rw [memcpy_of_lt ho, memcpy_of_lt (by omega), Nat.add_sub_cancel' ha]
    rcases Nat.lt_or_ge b (a + ofs + cnt) with hc | hc
    · rw [memcpy_of_mem ho hc, memcpy_of_mem (by omega) (by omega), Nat.sub_sub]
    · rw [memcpy_of_ge hc, memcpy_of_ge (by omega), Nat.add_sub_cancel' ha]
  · rw [memcpy_of_ge hs, memcpy_of_ge (by omega)]

/-- One round of a write replaces the bytes of the chunk, and no other byte of the sector. -/
theorem writeChunk_eq (h : d.Fits size) (ho : offset < d.length.toNat)
    (hcnt : cnt ≤ BLOCK_SECTOR_SIZE - offset % BLOCK_SECTOR_SIZE) :
    writeChunk size d buffer offset done cnt device =
      some (true, memcpy device (d.address offset) cnt fun j => buffer (done + j)) := by
  obtain ⟨hsector, hlt⟩ := byteToSector_eq h ho
  have hmod : offset % BLOCK_SECTOR_SIZE < BLOCK_SECTOR_SIZE := Nat.mod_lt _ (by decide)
  have hsplit := address_split d offset 0
  rw [Nat.add_zero, Nat.add_zero] at hsplit
  unfold writeChunk blockWrite blockRead
  simp only [hsector, if_pos hlt, Option.bind_eq_bind, Option.bind_some]
  split
  · next hfull =>
    obtain ⟨hofs, hcnt⟩ := hfull
    rw [hofs, Nat.add_zero] at hsplit
    rw [hsplit, hcnt]
  · next hpartial =>
    -- the chunk does not fill the sector, so the sector has been read
    rw [if_pos (by omega)]
    show some (true, _) = _
    rw [memcpy_sector _ _ _ _ _ (by omega), hsplit]

end Chunks

section Transfers

variable {s : Fs} {i : InodeAddr} {inode : Inode}

/-- What `inode_read_at` delivers: the bytes of the file from `offset` on, as many as the
transfer loop moves. -/
theorem inodeReadAt_eq (hi : s.getInode i = some inode) (hfits : inode.data.Fits s.size)
    (buffer : Bytes) (size : Int) (offset : Nat) :
    inodeReadAt i buffer size offset s =
      let n := transferCount inode.data.length.toNat (s.bounce 0) size.toNat size.toNat offset
      some ((n, memcpy buffer 0 n fun j => s.device (inode.data.address offset + j)),
        s.mallocBounce.2) := by
  have hloop := @transferLoop_eq _ inode.data.length.toNat (s.bounce 0)
    (readChunk s.size s.device inode.data) size.toNat size.toNat offset
    (fun k => memcpy buffer 0 k fun j => s.device (inode.data.address offset + j)) ?_
  · simp only [memcpy_zero] at hloop
    simp only [inodeReadAt, hi, Fs.mallocBounce, hloop, Option.bind_eq_bind, Option.bind_some,
      Option.getD_some]
  · intro k cnt hpos hk _
    have happend := memcpy_memcpy_add buffer
      (fun j => s.device (inode.data.address offset + j)) 0 k cnt
    rw [Nat.zero_add] at happend
    rw [readChunk_eq hfits (by omega), ← happend]
    simp only [InodeDisk.address_add, Nat.add_assoc]

/-- What `inode_write_at` changes: unless writes are denied, the bytes of the file from
`offset` on are replaced, as many as the transfer loop moves. -/
theorem inodeWriteAt_eq (hi : s.getInode i = some inode) (hfits : inode.data.Fits s.size)
    (hdeny : inode.denyWriteCnt = 0) (buffer : Bytes) (size : Int) (offset : Nat) :
    inodeWriteAt i buffer size offset s =
      let n := transferCount inode.data.length.toNat (s.bounce 0) size.toNat size.toNat offset
      some (n, { s.mallocBounce.2 with
        device := memcpy s.device (inode.data.address offset) n buffer }) := by
  have hloop := @transferLoop_eq _ inode.data.length.toNat (s.bounce 0)
    (writeChunk s.size inode.data buffer) size.toNat size.toNat offset
    (fun k => memcpy s.device (inode.data.address offset) k buffer) ?_
  · simp only [memcpy_zero] at hloop
    simp only [inodeWriteAt, hi, hdeny, Fs.mallocBounce, hloop, Option.bind_eq_bind,
      Option.bind_some, Option.getD_some, ne_eq, not_true_eq_false, if_false]
  · intro k cnt hpos hk hcnt
    rw [writeChunk_eq hfits (by omega) hcnt, ← memcpy_memcpy_add]
    simp only [InodeDisk.address_add]

/-- A read with a bounce buffer stops short only at the end of the file. -/
theorem inodeReadAt_complete (hi : s.getInode i = some inode) (hfits : inode.data.Fits s.size)
    (hbounce : s.bounce 0 = true) (buffer : Bytes) (size : Int) (offset : Nat) :
    inodeReadAt i buffer size offset s =
      let n := min size.toNat (inode.data.length.toNat - offset)
      some ((n, memcpy buffer 0 n fun j => s.device (inode.data.address offset + j)),
        { s with bounce := fun n => s.bounce (n + 1) }) := by
  rw [inodeReadAt_eq hi hfits, hbounce, transferCount_bounce _ _ _ _ (Nat.le_refl _)]
  rfl

/-- A write with a bounce buffer stops short only at the end of the file. -/
theorem inodeWriteAt_complete (hi : s.getInode i = some inode) (hfits : inode.data.Fits s.size)
    (hdeny : inode.denyWriteCnt = 0) (hbounce : s.bounce 0 = true) (buffer : Bytes) (size : Int)
    (offset : Nat) :
    inodeWriteAt i buffer size offset s =
      let n := min size.toNat (inode.data.length.toNat - offset)
      some (n, { s with
        device := memcpy s.device (inode.data.address offset) n buffer
        bounce := fun n => s.bounce (n + 1) }) := by
  rw [inodeWriteAt_eq hi hfits hdeny, hbounce, transferCount_bounce _ _ _ _ (Nat.le_refl _)]
  rfl

/-- Byte `o` of an inode's data. -/
def Fs.byte (s : Fs) (inode : Inode) (o : Nat) : UInt8 := s.device (inode.data.address o)

/-- The inode as the byte array its sectors hold. -/
def Inode.view (inode : Inode) (s : Fs) : Filesys.Inode where
  length := inode.data.length.toNat
  data := s.byte inode
  openCnt := inode.openCnt.toNat
  denyWriteCnt := inode.denyWriteCnt.toNat

/-- Replacing device bytes from the file's `offset` on replaces its bytes from there on. -/
theorem byte_memcpy (device buffer : Bytes) (d : InodeDisk) (offset n o : Nat) :
    memcpy device (d.address offset) n buffer (d.address o) =
      if offset ≤ o ∧ o < offset + n then buffer (o - offset) else device (d.address o) := by
  unfold InodeDisk.address memcpy
  apply if_congr
  · omega
  · apply congrArg
    omega
  · rfl

/-- A buffer with bytes of the file at its front. -/
private theorem memcpy_byte (s : Fs) (inode : Inode) (buffer : Bytes) (n offset k : Nat) :
    memcpy buffer 0 n (fun j => s.device (inode.data.address offset + j)) k =
      if k < n then s.byte inode (offset + k) else buffer k := by
  simp [memcpy, Fs.byte, InodeDisk.address_add]

private theorem view_inodeReadAt (hi : s.getInode i = some inode) (hfits : inode.data.Fits s.size)
    (buffer : Bytes) (size : Int) (offset : Nat) :
    ∃ n bytes t, inodeReadAt i buffer size offset s = some ((n, bytes), t) ∧
      n = Filesys.inodeReadAt (inode.view s) (s.bounce 0) size.toNat offset ∧
      (∀ k, bytes k = if k < n then (inode.view s).data (offset + k) else buffer k) ∧
      t.device = s.device :=
  ⟨_, _, _, inodeReadAt_eq hi hfits buffer size offset, rfl, memcpy_byte s inode buffer _ _, rfl⟩

/-- With a bounce buffer a transfer covers the requested range as far as the file goes. -/
theorem transferCount_eq_max {n : Nat} {size : Int} {offset : Nat} :
    (transferCount n true size.toNat size.toNat offset : Int) = max 0 (min size (n - offset)) := by
  rw [transferCount_bounce _ _ _ _ (Nat.le_refl _)]
  omega

end Transfers

/-- The two transfers implement a byte array. A write replaces the bytes of the requested
range as far as the file goes, and no other byte of the device; a read, also after a write,
delivers the bytes as they are, and leaves the rest of the buffer alone. -/
theorem inode_transfers_are_byte_array (s : Fs) (i : InodeAddr) (inode : Inode) (n : Nat)
    (hi : s.getInode i = some inode) (hlength : inode.data.length = n)
    (hsize : s.size ≤ 2 ^ 32)
    (hsectors : inode.data.start + (n + (BLOCK_SECTOR_SIZE - 1)) / BLOCK_SECTOR_SIZE ≤ s.size)
    (hbounce : ∀ k, s.bounce k = true) (hdeny : inode.denyWriteCnt = 0)
    (buffer : Bytes) (size : Int) (offset : Nat) :
    (∃ cnt t bytes, inodeReadAt i buffer size offset s = some ((cnt, bytes), t) ∧
      (cnt : Int) = max 0 (min size (n - offset)) ∧ t.device = s.device ∧
      ∀ k, bytes k = if k < cnt then s.byte inode (offset + k) else buffer k) ∧
    ∃ cnt t, inodeWriteAt i buffer size offset s = some (cnt, t) ∧
      (cnt : Int) = max 0 (min size (n - offset)) ∧
      (∀ o < n, t.byte inode o =
        if offset ≤ o ∧ o < offset + cnt then buffer (o - offset) else s.byte inode o) ∧
      (∀ a, a < inode.data.address 0 ∨ inode.data.address n ≤ a → t.device a = s.device a) ∧
      ∀ (buffer' : Bytes) (size' : Int) (offset' : Nat),
        ∃ cnt' t' bytes, inodeReadAt i buffer' size' offset' t = some ((cnt', bytes), t') ∧
          (cnt' : Int) = max 0 (min size' (n - offset')) ∧
          ∀ k, bytes k =
            if k < cnt' then
              if offset ≤ offset' + k ∧ offset' + k < offset + cnt then
                buffer (offset' + k - offset)
              else s.byte inode (offset' + k)
            else buffer' k := by
  have hfits : inode.data.Fits s.size := by
    constructor
    · exact hsize
    · unfold BLOCK_SECTOR_SIZE at *
      omega
  have hn : inode.data.length.toNat = n := by omega
  constructor
  · obtain ⟨cnt, bytes, t, hread, hcnt, hbytes, hdevice⟩ :=
      view_inodeReadAt hi hfits buffer size offset
    refine ⟨cnt, t, bytes, hread, ?_, hdevice, hbytes⟩
    rw [hcnt, Filesys.inodeReadAt, hbounce]
    simp only [Inode.view, hn]
    exact transferCount_eq_max
  · have hwrite := inodeWriteAt_eq hi hfits hdeny buffer size offset
    simp only [hn, hbounce] at hwrite
    have hle := transferCount_le n true size.toNat size.toNat offset
    generalize hcnt : transferCount n true size.toNat size.toNat offset = cnt at hwrite hle
    refine ⟨cnt, _, hwrite, hcnt ▸ transferCount_eq_max, ?_, ?_, ?_⟩
    · intro o _
      apply byte_memcpy
    · intro a ha
      unfold InodeDisk.address at ha
      rcases ha with ha | ha
      · exact memcpy_of_lt (by unfold InodeDisk.address; omega)
      · apply if_neg
        unfold InodeDisk.address
        omega
    · intro buffer' size' offset'
      have hread := inodeReadAt_eq (s := { s.mallocBounce.2 with
        device := memcpy s.device (inode.data.address offset) cnt buffer })
        hi hfits buffer' size' offset'
      refine ⟨_, _, _, hread, ?_, ?_⟩
      · simp only [hn, Fs.mallocBounce, hbounce]
        exact transferCount_eq_max
      · intro k
        rw [memcpy_byte]
        exact if_congr Iff.rfl (byte_memcpy _ _ _ _ _ _) rfl

/-- A file of 600 bytes in sectors 2 and 3 of a device of four sectors. -/
def twoSectorFile : Fs where
  size := 4
  device := fun _ => 0
  freeMap := [true, true, true, true]
  freeMapFile := none
  openInodes := [0]
  inode := fun _ => ⟨1, 1, false, 0, 2, 600, INODE_MAGIC⟩
  files := []
  file := fun _ => ⟨0, 0, false⟩
  heap := fun _ => none
  bounce := fun _ => true

/-- A write of 700 bytes across the sector boundary stops at the end of the file. -/
theorem inode_transfers_are_byte_array_across_sectors :
    ∃ t, inodeWriteAt 0 (fun _ => 7) 700 500 twoSectorFile = some (100, t) := by
  obtain ⟨-, cnt, t, hwrite, hcnt, -⟩ := inode_transfers_are_byte_array twoSectorFile 0
    (twoSectorFile.inode 0) 600 rfl rfl (by decide) (by decide) (fun _ => rfl) rfl
    (fun _ => 7) 700 500
  refine ⟨t, ?_⟩
  rw [hwrite]
  have : cnt = 100 := by omega
  rw [this]

end Pintos.Filesys.Disk

import Pintos.Base.Run
import Pintos.Filesys.FreeMap

/-!
# The free map survives a shutdown

`free_map_allocate` and `free_map_release` write the whole bitmap to the free map's file.
While those writes are complete the file holds the bitmap in memory, word for word, and
`free_map_open` after the next boot reads it back. Source `filesys/free-map.c`,
`lib/kernel/bitmap.c:327–360`.
-/

namespace Pintos.Filesys.Disk

open Pintos.Base Pintos.Lib

/-- The free map's file is open as `f`, over the inode at `i`, and has room for the map. -/
structure FreeMapFileOpen (s : Fs) (f : FileAddr) (i : InodeAddr) : Prop where
  freeMapFile : s.freeMapFile = some f
  live : f ∈ s.files
  inode : (s.file f).inode = i
  opened : i ∈ s.openInodes
  fits : (s.inode i).data.Fits s.size
  length : byteCnt s.size ≤ (s.inode i).data.length.toNat
  bits : s.freeMap.length = s.size

/-- The bitmap that the file over inode `i` holds. -/
def Fs.storedMap (s : Fs) (i : InodeAddr) : Bitmap :=
  unpack s.size (maskLast s.size (elemsOfBytes (s.byte (s.inode i))))

section Writes

variable {s : Fs} {f : FileAddr} {i : InodeAddr} {b : Bitmap}

private theorem FreeMapFileOpen.getFile (h : FreeMapFileOpen s f i) :
    s.getFile f = some (s.file f) := if_pos h.live

private theorem FreeMapFileOpen.getInode (h : FreeMapFileOpen s f i) :
    s.getInode i = some (s.inode i) := if_pos h.opened

private theorem bitmapWrite_complete (h : FreeMapFileOpen s f i) (hb : b.length = s.size)
    (hdeny : (s.inode i).denyWriteCnt = 0) (hbounce : s.bounce 0 = true) :
    bitmapWrite b f s = some (true, { s with
      device :=
        memcpy s.device ((s.inode i).data.address 0) (byteCnt s.size) (elemsToBytes (pack b))
      bounce := fun n => s.bounce (n + 1) }) := by
  have hwrite := inodeWriteAt_complete h.getInode h.fits hdeny hbounce
    (elemsToBytes (pack b)) (byteCnt s.size) 0
  have hlength := h.length
  rw [show min (byteCnt s.size : Int).toNat ((s.inode i).data.length.toNat - 0) = byteCnt s.size
    by omega] at hwrite
  simp only [bitmapWrite, fileWriteAt, h.getFile, h.inode, Option.bind_eq_bind, Option.bind_some,
    hb, hwrite, beq_self_eq_true]

end Writes

/-- The free map's file, open and writable, over the inode in its sector: what it stores is
the map in memory. -/
structure MapStored (s : Fs) (f : FileAddr) (i : InodeAddr) : Prop
    extends FreeMapFileOpen s f i where
  elems : s.size + (ELEM_BITS - 1) < 2 ^ 32
  allowed : (s.inode i).denyWriteCnt = 0
  allowedFile : (s.file f).denyWrite = false
  soleOpener : (s.inode i).openCnt = 1
  notRemoved : (s.inode i).removed = false
  bounce : ∀ n, s.bounce n = true
  disk : s.diskInode FREE_MAP_SECTOR = (s.inode i).data
  start : 0 < (s.inode i).data.start
  stored : s.storedMap i = s.freeMap

/-- The state after the map `b` has been stored. -/
def Fs.store (s : Fs) (i : InodeAddr) (b : Bitmap) : Fs :=
  { s with
    freeMap := b
    device := memcpy s.device ((s.inode i).data.address 0) (byteCnt s.size) (elemsToBytes (pack b))
    bounce := fun n => s.bounce (n + 1) }

namespace MapStored

variable {s t : Fs} {f : FileAddr} {i : InodeAddr} {b : Bitmap}

/-- Storing a map keeps the file's inode where it is and makes the file hold the map. -/
theorem store (h : MapStored s f i) (hb : b.length = s.size) : MapStored (s.store i b) f i where
  freeMapFile := h.freeMapFile
  live := h.live
  inode := h.inode
  opened := h.opened
  fits := h.fits
  length := h.length
  bits := hb
  elems := h.elems
  allowed := h.allowed
  allowedFile := h.allowedFile
  soleOpener := h.soleOpener
  notRemoved := h.notRemoved
  bounce := fun n => h.bounce (n + 1)
  disk := by
    -- the data begins after the sector of the inode
    show (s.store i b).diskInode FREE_MAP_SECTOR = (s.inode i).data
    rw [← h.disk]
    apply InodeDisk.ofBytes_congr
    intro j hj
    apply memcpy_of_lt
    have hstart := h.start
    unfold InodeDisk.address FREE_MAP_SECTOR BLOCK_SECTOR_SIZE
    omega
  start := h.start
  stored := by
    have himage : ∀ j < byteCnt b.length,
        (s.store i b).byte (s.inode i) j = elemsToBytes (pack b) j := by
      intro j hj
      rw [hb] at hj
      unfold Fs.byte Fs.store
      simp only
      rw [byte_memcpy, if_pos (by omega), Nat.sub_zero]
    have hload := unpack_maskLast (by rw [hb]; exact h.elems) himage
    rwa [hb] at hload

/-- What `bitmap_write` does to a state in which the new map is in memory. -/
private theorem bitmapWrite_store (h : MapStored s f i) (hb : b.length = s.size) :
    bitmapWrite b f { s with freeMap := b } = some (true, s.store i b) := by
  have hopen : FreeMapFileOpen { s with freeMap := b } f i :=
    { freeMapFile := h.freeMapFile, live := h.live, inode := h.inode, opened := h.opened,
      fits := h.fits, length := h.length, bits := hb }
  exact bitmapWrite_complete hopen hb h.allowed (h.bounce 0)

private theorem allocate (h : MapStored s f i) {cnt : Nat} {r : Option Nat}
    (hstep : freeMapAllocate cnt s = some (r, t)) : MapStored t f i := by
  cases hscan : bitmapScan s.freeMap 0 cnt false with
  | none =>
    rw [freeMapAllocate_of_none hscan] at hstep
    cases hstep
    exact h
  | some sector =>
    have hb : (bitmapSetMultiple s.freeMap sector cnt true).length = s.size := by
      rw [length_bitmapSetMultiple, h.bits]
    rw [freeMapAllocate_of_some h.freeMapFile hscan] at hstep
    simp only [bitmapWrite_store h hb, Option.map_some, if_true] at hstep
    cases hstep
    exact h.store hb

private theorem release (h : MapStored s f i) {sector cnt : Nat}
    (hstep : freeMapRelease sector cnt s = some t) : MapStored t f i := by
  obtain ⟨hle, hbits⟩ := freeMapRelease_some hstep
  have hb : (bitmapSetMultiple s.freeMap sector cnt false).length = s.size := by
    rw [length_bitmapSetMultiple, h.bits]
  rw [freeMapRelease_eq h.freeMapFile hle hbits] at hstep
  simp only [bitmapWrite_store h hb, Option.map_some] at hstep
  cases hstep
  exact h.store hb

private theorem close (h : MapStored s f i) :
    ∃ u, freeMapClose s = some u ∧ u.size = s.size ∧ u.device = s.device := by
  simp only [freeMapClose, h.freeMapFile, fileClose, fileAllowWrite, h.getFile, h.allowedFile,
    Bool.false_eq_true, if_false, Option.bind_eq_bind, Option.bind_some, inodeClose, h.inode,
    h.getInode, h.soleOpener, h.notRemoved, Int.sub_self, if_true]
  exact ⟨_, rfl, rfl, rfl⟩

end MapStored

/-- A failed `free_map_allocate` leaves the map as it was, also where the write failed. -/
theorem freeMap_of_freeMapAllocate_none {s t : Fs} {cnt : Nat}
    (h : freeMapAllocate cnt s = some (none, t)) : t.freeMap = s.freeMap := by
  cases hscan : bitmapScan s.freeMap 0 cnt false with
  | none =>
    rw [freeMapAllocate_of_none hscan] at h
    cases h
    rfl
  | some sector =>
    cases hf : s.freeMapFile with
    | none =>
      rw [freeMapAllocate_of_noFile hf hscan] at h
      cases h
    | some f =>
      obtain ⟨hle, hbits⟩ := bitmapScan_some hscan
      rw [freeMapAllocate_of_some hf hscan] at h
      obtain ⟨⟨ok, u⟩, hwrite, h⟩ := Option.map_eq_some_iff.mp h
      cases ok with
      | true => cases h
      | false =>
        cases h
        obtain ⟨device, bounce, -, rfl⟩ := bitmapWrite_frame hwrite
        exact bitmapSetMultiple_undo hle hbits

/-- A call on the free map. -/
inductive FreeMapCall where
  | allocate (cnt : Nat)
  | release (sector cnt : Nat)

/-- The state after a call that returns. -/
def freeMapStep (s : Fs) : FreeMapCall → Option Fs
  | .allocate cnt => (freeMapAllocate cnt s).map Prod.snd
  | .release sector cnt => freeMapRelease sector cnt s

private theorem mapStored_step {s t : Fs} {f : FileAddr} {i : InodeAddr} (h : MapStored s f i)
    {call : FreeMapCall} (hstep : freeMapStep s call = some t) : MapStored t f i := by
  cases call with
  | allocate cnt =>
    obtain ⟨⟨r, u⟩, hcall, hu⟩ := Option.map_eq_some_iff.mp hstep
    cases hu
    exact h.allocate hcall
  | release sector cnt => exact h.release hstep

/-- A formatted device: the inode in the free map's sector has room for the map, in sectors of
its own. -/
structure FreeMapOnDisk (s : Fs) : Prop where
  fits : (s.diskInode FREE_MAP_SECTOR).Fits s.size
  length : byteCnt s.size ≤ (s.diskInode FREE_MAP_SECTOR).length.toNat
  start : 0 < (s.diskInode FREE_MAP_SECTOR).start

/-- The file system module at boot: nothing is open and every transfer will be complete. -/
structure Booted (s : Fs) : Prop where
  size_lt : s.size < 2 ^ 32
  openInodes : s.openInodes = []
  files : s.files = []
  bounce : ∀ n, s.bounce n = true

/-- The state in which the inode in the free map's sector is open at `i`, and its file at `f`. -/
def Fs.openFreeMap (s : Fs) (f : FileAddr) (i : InodeAddr) : Fs :=
  { s with
    openInodes := [i]
    inode := Function.update s.inode i ⟨FREE_MAP_SECTOR, 1, false, 0, s.diskInode FREE_MAP_SECTOR⟩
    files := [f]
    file := Function.update s.file f ⟨i, 0, false⟩
    freeMapFile := some f
    heap := fun n => s.heap (n + 2) }

section Boot

variable {s t : Fs} {f : FileAddr} {i : InodeAddr}

/-- `bitmap_create` makes a map of clear bits, whose number of words does not overflow. -/
theorem bitmapCreate_some {n : Nat} {b : Bitmap} (hn : n < 2 ^ 32)
    (h : bitmapCreate n s = (some b, t)) :
    b = List.replicate n false ∧ n + (ELEM_BITS - 1) < 2 ^ 32 ∧
      t = { s with heap := t.heap } := by
  have hcnt : byteCnt n ≠ 0 → n + (ELEM_BITS - 1) < 2 ^ 32 := by
    unfold byteCnt elemCnt ELEM_BITS
    omega
  unfold bitmapCreate at h
  split at h
  · cases h
  · next a m hm =>
    obtain ⟨-, -, -, -, rfl⟩ := Fs.malloc_some hm
    split at h
    · split at h
      · next hz =>
        cases h
        subst hz
        exact ⟨rfl, by decide, rfl⟩
      · cases h
    · next hz =>
      obtain ⟨hb, ht⟩ := Prod.mk.inj h
      obtain ⟨a', -, hb⟩ := Option.map_eq_some_iff.mp hb
      subst ht hb
      exact ⟨rfl, hcnt hz, rfl⟩

private theorem freeMapInit_some (hsize : s.size < 2 ^ 32) (h : freeMapInit s = some t) :
    t.freeMap.length = s.size ∧ s.size + (ELEM_BITS - 1) < 2 ^ 32 ∧
      t = { s with freeMap := t.freeMap, heap := t.heap } := by
  unfold freeMapInit at h
  cases hcreate : bitmapCreate s.size s with
  | mk b m =>
    rw [hcreate] at h
    obtain ⟨b, rfl, ht⟩ := Option.map_eq_some_iff.mp h
    obtain ⟨hb, helems, hm⟩ := bitmapCreate_some hsize hcreate
    subst ht
    refine ⟨?_, helems, ?_⟩
    · rw [length_bitmapSet, length_bitmapSet, hb, List.length_replicate]
    · rw [hm]

/-- `free_map_init` returns where its two allocations succeed and the number of words does not
overflow. -/
theorem freeMapInit_isSome (hb : Booted s) (hpos : 0 < s.size)
    (helems : s.size + (ELEM_BITS - 1) < 2 ^ 32) (h0 : (s.heap 0).isSome) (h1 : (s.heap 1).isSome) :
    ∃ b, freeMapInit s = some { s with freeMap := b, heap := fun n => s.heap (n + 2) } := by
  have hcnt : byteCnt s.size ≠ 0 := by
    unfold byteCnt elemCnt
    rw [Nat.mod_eq_of_lt helems]
    unfold ELEM_BITS
    omega
  obtain ⟨a, ha⟩ := Option.isSome_iff_exists.mp h0
  obtain ⟨a', ha'⟩ := Option.isSome_iff_exists.mp h1
  have hcreate : bitmapCreate s.size s =
      (some (List.replicate s.size false), { s with heap := fun n => s.heap (n + 2) }) := by
    unfold bitmapCreate
    rw [Fs.malloc_eq ha (by simp [hb.openInodes]) (by simp [hb.files])]
    simp only [if_neg hcnt]
    rw [Fs.malloc_eq (a := a') ha' (by simp [hb.openInodes]) (by simp [hb.files])
     ]
    rfl
  refine ⟨bitmapSet (bitmapSet (List.replicate s.size false) FREE_MAP_SECTOR true)
    ROOT_DIR_SECTOR true, ?_⟩
  simp only [freeMapInit, hcreate, Option.map_some]

/-- `free_map_open` where the two structures it needs are allocated. -/
theorem freeMapOpen_eq (hb : Booted s) (hpos : 0 < s.size) (hi : s.heap 0 = some i)
    (hf : s.heap 1 = some f) (hne : f ≠ i) :
    freeMapOpen s = (bitmapRead s.freeMap f (s.openFreeMap f i)).bind fun r =>
      if r.1.1 then some { r.2 with freeMap := r.1.2 } else none := by
  have hmalloc : s.malloc = (some i, { s with heap := fun n => s.heap (n + 1) }) :=
    Fs.malloc_eq hi (by simp [hb.openInodes]) (by simp [hb.files])
  let m : Fs := { s with
    openInodes := [i]
    inode := Function.update s.inode i ⟨FREE_MAP_SECTOR, 1, false, 0, s.diskInode FREE_MAP_SECTOR⟩
    heap := fun n => s.heap (n + 1) }
  have hinode : inodeOpen FREE_MAP_SECTOR s = some (some i, m) := by
    unfold inodeOpen blockRead FREE_MAP_SECTOR
    simp only [hb.openInodes, List.find?_nil, hmalloc, if_pos hpos, Option.bind_eq_bind,
      Option.bind_some]
    rfl
  have hmalloc' : m.malloc = (some f, { m with heap := fun n => s.heap (n + 2) }) :=
    Fs.malloc_eq hf (by simp [m, hne]) (by simp [m, hb.files])
  have hfile : fileOpen (some i) m = some (some f, { m with
      files := [f]
      file := Function.update s.file f ⟨i, 0, false⟩
      heap := fun n => s.heap (n + 2) }) := by
    simp only [fileOpen, hmalloc', Fs.addFile]
    simp only [m, hb.files]
  unfold freeMapOpen
  rw [hinode, Option.bind_eq_bind, Option.bind_some]
  simp only [hfile, Option.bind_eq_bind, Option.bind_some]
  rfl

private theorem heap_of_freeMapOpen (hb : Booted s) (h : freeMapOpen s = some t) :
    0 < s.size ∧ ∃ i f, s.heap 0 = some i ∧ s.heap 1 = some f ∧ f ≠ i := by
  obtain ⟨⟨i, m⟩, hinode, h⟩ := Option.bind_eq_some_iff.mp h
  obtain ⟨⟨f, m'⟩, hfile, h⟩ := Option.bind_eq_some_iff.mp h
  obtain ⟨f', hf', -⟩ := Option.bind_eq_some_iff.mp h
  subst hf'
  unfold fileOpen at hfile
  split at hfile
  · next i f m2 hmalloc' =>
    cases hfile
    unfold inodeOpen at hinode
    simp only [hb.openInodes, List.find?_nil] at hinode
    split at hinode
    · cases hinode
    · next i' m1 hmalloc =>
      obtain ⟨hi, -, -, -, rfl⟩ := Fs.malloc_some hmalloc
      obtain ⟨data, hdata, hinode⟩ := Option.bind_eq_some_iff.mp hinode
      cases hinode
      obtain ⟨hf, hne, -, -, -⟩ := Fs.malloc_some hmalloc'
      refine ⟨?_, i, _, hi, hf, ?_⟩
      · unfold blockRead at hdata
        split at hdata
        · next hlt => exact hlt
        · cases hdata
      · rintro rfl
        exact hne List.mem_cons_self
  · obtain ⟨u, -, hu⟩ := Option.bind_eq_some_iff.mp hfile
    cases hu

private theorem bitmapRead_complete {b : Bitmap} (h : FreeMapFileOpen s f i)
    (hb : b.length = s.size)
    (hpos : 0 < s.size) (helems : s.size + (ELEM_BITS - 1) < 2 ^ 32) (hbounce : s.bounce 0 = true) :
    bitmapRead b f s =
      some ((true, s.storedMap i), { s with bounce := fun n => s.bounce (n + 1) }) := by
  have hlength := h.length
  have hread := inodeReadAt_complete h.getInode h.fits hbounce
    (elemsToBytes (pack b)) (byteCnt s.size) 0
  rw [show min (byteCnt s.size : Int).toNat ((s.inode i).data.length.toNat - 0) = byteCnt s.size
    by omega] at hread
  simp only [bitmapRead, hb, hpos, if_true, fileReadAt, h.getFile, h.inode, Option.bind_eq_bind,
    Option.bind_some, hread, beq_self_eq_true]
  have himage : ∀ j < byteCnt s.size, memcpy (elemsToBytes (pack b)) 0 (byteCnt s.size)
      (fun j => s.device ((s.inode i).data.address 0 + j)) j = s.byte (s.inode i) j := by
    intro j hj
    rw [memcpy_of_mem (Nat.zero_le j) (by omega), Nat.sub_zero, InodeDisk.address_add,
      Nat.zero_add]
    rfl
  rw [unpack_maskLast_congr helems himage]
  rfl

/-- After `free_map_open` the map in memory is the one in the file. -/
theorem mapStored_openFreeMap (hb : Booted s) (hdisk : FreeMapOnDisk s)
    (hbits : s.freeMap.length = s.size) (helems : s.size + (ELEM_BITS - 1) < 2 ^ 32)
    (hpos : 0 < s.size) (hi : s.heap 0 = some i) (hf : s.heap 1 = some f) (hne : f ≠ i) :
    ∃ t, freeMapOpen s = some t ∧ MapStored t f i ∧ t.size = s.size ∧ t.device = s.device ∧
      t.freeMap = unpack s.size (maskLast s.size (elemsOfBytes fun j =>
        s.device ((s.diskInode FREE_MAP_SECTOR).address j))) := by
  have hinode : (s.openFreeMap f i).inode i =
      ⟨FREE_MAP_SECTOR, 1, false, 0, s.diskInode FREE_MAP_SECTOR⟩ := Function.update_self _ _ _
  have hfile : (s.openFreeMap f i).file f = ⟨i, 0, false⟩ := Function.update_self _ _ _
  have hopen : FreeMapFileOpen (s.openFreeMap f i) f i :=
    { freeMapFile := rfl
      live := List.mem_cons_self
      inode := by rw [hfile]
      opened := List.mem_cons_self
      fits := by rw [hinode]; exact hdisk.fits
      length := by rw [hinode]; exact hdisk.length
      bits := hbits }
  let t : Fs := { s.openFreeMap f i with
    freeMap := (s.openFreeMap f i).storedMap i
    bounce := fun n => s.bounce (n + 1) }
  have ht : freeMapOpen s = some t := by
    rw [freeMapOpen_eq hb hpos hi hf hne, bitmapRead_complete hopen hbits hpos helems (hb.bounce 0)]
    rfl
  refine ⟨t, ht, ?_, rfl, rfl, ?_⟩
  · exact
      { freeMapFile := hopen.freeMapFile
        live := hopen.live
        inode := hopen.inode
        opened := hopen.opened
        fits := hopen.fits
        length := hopen.length
        bits := by simp [t, Fs.storedMap, unpack]
        elems := helems
        allowed := by show ((s.openFreeMap f i).inode i).denyWriteCnt = 0; rw [hinode]
        allowedFile := by show ((s.openFreeMap f i).file f).denyWrite = false; rw [hfile]
        soleOpener := by show ((s.openFreeMap f i).inode i).openCnt = 1; rw [hinode]
        notRemoved := by show ((s.openFreeMap f i).inode i).removed = false; rw [hinode]
        bounce := fun n => hb.bounce (n + 1)
        disk := by
          show s.diskInode FREE_MAP_SECTOR = ((s.openFreeMap f i).inode i).data
          rw [hinode]
        start := by
          show 0 < ((s.openFreeMap f i).inode i).data.start
          rw [hinode]
          exact hdisk.start
        stored := rfl }
  · show (s.openFreeMap f i).storedMap i = _
    unfold Fs.storedMap Fs.byte
    rw [hinode]
    rfl

end Boot

/-- A boot of the same device at which no allocation fails. -/
structure Reboots (s r : Fs) : Prop extends Booted r where
  size : r.size = s.size
  device : r.device = s.device
  heap : ∀ n, (r.heap n).isSome
  heap_inj : ∀ m n a, r.heap m = some a → r.heap n = some a → m = n

/-- `free_map_init` and `free_map_open` on a formatted device read the map from its file. -/
theorem mapStored_boot {s0 s1 s : Fs} (hboot : Booted s0) (hdisk : FreeMapOnDisk s0)
    (hinit : freeMapInit s0 = some s1) (hopen : freeMapOpen s1 = some s) :
    ∃ f i, MapStored s f i := by
  obtain ⟨hbits, helems, hs1⟩ := freeMapInit_some hboot.size_lt hinit
  have hsize : s1.size = s0.size := by rw [hs1]
  have hboot1 : Booted s1 := by
    rw [hs1]
    exact ⟨hboot.size_lt, hboot.openInodes, hboot.files, hboot.bounce⟩
  have hdisk1 : FreeMapOnDisk s1 := by
    rw [hs1]
    exact ⟨hdisk.fits, hdisk.length, hdisk.start⟩
  obtain ⟨hpos, i, f, hi, hf, hne⟩ := heap_of_freeMapOpen hboot1 hopen
  obtain ⟨t, ht, hstored, -⟩ := mapStored_openFreeMap hboot1 hdisk1 (by rw [hbits, hsize])
    (by rw [hsize]; exact helems) hpos hi hf hne
  rw [hopen, Option.some.injEq] at ht
  subst ht
  exact ⟨f, i, hstored⟩

private theorem MapStored.reboot {s r : Fs} {f : FileAddr} {i : InodeAddr} (h : MapStored s f i)
    (hr : Reboots s r) :
    ∃ r1 r2, freeMapInit r = some r1 ∧ freeMapOpen r1 = some r2 ∧ r2.freeMap = s.freeMap := by
  have hpos : 0 < r.size := by
    have hstart := h.start
    have hle := h.fits.data_le
    rw [hr.size]
    unfold BLOCK_SECTOR_SIZE at hle
    omega
  have helems : r.size + (ELEM_BITS - 1) < 2 ^ 32 := by
    rw [hr.size]
    exact h.elems
  have hinode : r.diskInode FREE_MAP_SECTOR = (s.inode i).data := by
    rw [← h.disk]
    unfold Fs.diskInode
    rw [hr.device]
  obtain ⟨b, hinit⟩ := freeMapInit_isSome hr.toBooted hpos helems (hr.heap 0) (hr.heap 1)
  obtain ⟨hbits, -, -⟩ := freeMapInit_some hr.size_lt hinit
  obtain ⟨i', hi'⟩ := Option.isSome_iff_exists.mp (hr.heap 2)
  obtain ⟨f', hf'⟩ := Option.isSome_iff_exists.mp (hr.heap 3)
  have hne : f' ≠ i' := by
    rintro rfl
    exact absurd (hr.heap_inj 2 3 f' hi' hf') (by decide)
  obtain ⟨t, ht, -, -, -, hmap⟩ := mapStored_openFreeMap
    (s := { r with freeMap := b, heap := fun n => r.heap (n + 2) })
    ⟨hr.size_lt, hr.openInodes, hr.files, hr.bounce⟩
    ⟨show (r.diskInode FREE_MAP_SECTOR).Fits r.size by rw [hinode, hr.size]; exact h.fits,
      show byteCnt r.size ≤ (r.diskInode FREE_MAP_SECTOR).length.toNat by
        rw [hinode, hr.size]; exact h.length,
      show 0 < (r.diskInode FREE_MAP_SECTOR).start by rw [hinode]; exact h.start⟩
    hbits helems hpos hi' hf' hne
  refine ⟨_, t, hinit, ht, ?_⟩
  rw [hmap, ← h.stored]
  show unpack r.size (maskLast r.size (elemsOfBytes fun j =>
    r.device ((r.diskInode FREE_MAP_SECTOR).address j))) = _
  rw [hinode, hr.size, hr.device]
  rfl

/-- Whatever was allocated and released since `free_map_open`, the free map's file holds the map
in memory: after a shutdown the next boot reads the same map. An allocation that fails, in any
state, does not change the map. -/
theorem free_map_persists (s0 s1 s t : Fs) (calls : List FreeMapCall) (hboot : Booted s0)
    (hdisk : FreeMapOnDisk s0) (hinit : freeMapInit s0 = some s1) (hopen : freeMapOpen s1 = some s)
    (hrun : run freeMapStep s calls = some t) :
    (∃ f, t.freeMapFile = some f ∧ f ∈ t.files ∧ t.storedMap (t.file f).inode = t.freeMap ∧
      ∀ k < elemCnt t.size, maskLast t.size
        (elemsOfBytes (t.byte (t.inode (t.file f).inode))) k = pack t.freeMap k) ∧
    (∀ v cnt u, freeMapAllocate cnt v = some (none, u) → u.freeMap = v.freeMap) ∧
    ∃ u, freeMapClose t = some u ∧ ∀ r, Reboots u r →
      ∃ r1 r2, freeMapInit r = some r1 ∧ freeMapOpen r1 = some r2 ∧ r2.freeMap = t.freeMap := by
  obtain ⟨f, i, hs⟩ := mapStored_boot hboot hdisk hinit hopen
  have ht : MapStored t f i := run_preserves (P := fun s => MapStored s f i)
    (fun _ _ _ h hstep => mapStored_step h hstep) hs hrun
  refine ⟨⟨f, ht.freeMapFile, ht.live, ?_, ?_⟩, fun _ _ _ => freeMap_of_freeMapAllocate_none, ?_⟩
  · rw [ht.inode]
    exact ht.stored
  · intro k hk
    rw [ht.inode, ← ht.stored]
    exact (pack_unpack_maskLast ht.elems _ hk).symm
  · obtain ⟨u, hclose, hsize, hdevice⟩ := ht.close
    refine ⟨u, hclose, ?_⟩
    intro r hr
    exact ht.reboot { hr with size := hr.size.trans hsize, device := hr.device.trans hdevice }

/-- A boot of a formatted device of 40 sectors, whose map ends within a word. -/
def fortySectors : Fs where
  size := 40
  device := memcpy (fun _ => 0) 0 BLOCK_SECTOR_SIZE (InodeDisk.toBytes ⟨2, 8, INODE_MAGIC⟩)
  freeMap := []
  freeMapFile := none
  openInodes := []
  inode := fun _ => ⟨0, 0, false, 0, 0, 0, 0⟩
  files := []
  file := fun _ => ⟨0, 0, false⟩
  heap := fun n => some n
  bounce := fun _ => true

/-- The map after an allocation of 38 sectors is read back, although its last word is only
partly in use. -/
theorem free_map_persists_partial_word :
    ∃ s1 s t u, freeMapInit fortySectors = some s1 ∧ freeMapOpen s1 = some s ∧
      run freeMapStep s [.allocate 38] = some t ∧ freeMapClose t = some u ∧
      ∀ r, Reboots u r →
        ∃ r1 r2, freeMapInit r = some r1 ∧ freeMapOpen r1 = some r2 ∧ r2.freeMap = t.freeMap := by
  obtain ⟨t, ht⟩ := Option.isSome_iff_exists.mp
    (show (((freeMapInit fortySectors).bind freeMapOpen).bind
      (run freeMapStep · [.allocate 38])).isSome = true by decide +kernel)
  obtain ⟨s, hs, hrun⟩ := Option.bind_eq_some_iff.mp ht
  obtain ⟨s1, hinit, hopen⟩ := Option.bind_eq_some_iff.mp hs
  obtain ⟨-, -, u, hclose, hreboot⟩ := free_map_persists fortySectors s1 s t [.allocate 38]
    ⟨by decide, rfl, rfl, fun _ => rfl⟩
    ⟨⟨by decide, by decide +kernel⟩, by decide +kernel, by decide +kernel⟩ hinit hopen hrun
  exact ⟨s1, s, t, u, hinit, hopen, hrun, hclose, hreboot⟩

end Pintos.Filesys.Disk

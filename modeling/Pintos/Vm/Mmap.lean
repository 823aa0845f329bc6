import Pintos.Base.Run
import Pintos.Vm.Page

/-!
# Memory-mapped files

`mmap_map` with its rollback, `mmap_unmap` with its write-back and `munmap_all`.
Source `vm/mmap.c:14–174`.
-/

namespace Pintos.Vm

open Pintos.Base Pintos.Threads Pintos.Userprog Pintos.Lib Pintos.Filesys

/-- Entries of a descriptor table, `userprog/process.h:10`. -/
def MAX_FD_COUNT : Nat := 128

/-- The `n`-th page of a mapping, in the machine's wrapping arithmetic. -/
def mmapPage (addr : Addr) (n : Nat) : Addr := addr + BitVec.ofNat 32 (n * PGSIZE)

/-- `DIV_ROUND_UP (size, PGSIZE)`, `vm/mmap.c:14`. -/
def mmapPageCount (size : Nat) : Nat := (size + PGSIZE - 1) / PGSIZE

/-- The fields of the `n`-th page of a mapping, `vm/mmap.c:83–96`. -/
def mmapSpte (p : Pid) (m : MmapEntry) (n : Nat) : SptEntry :=
  let offset := n * PGSIZE
  let readBytes := if offset + PGSIZE ≤ m.size then PGSIZE else m.size - offset
  { upage := mmapPage m.addr n
    type := .file
    writable := true
    file := some m.file
    fileOffset := offset
    readBytes := readBytes
    zeroBytes := PGSIZE - readBytes
    swapSlot := 0
    frame := none
    pagedir := some p
    mapid := m.mapid }

/-- `hash_delete`: unlink the entry at an address. -/
def sptDelete (p : Pid) (upage : Addr) (s : VmState) : Option SpteAddr × VmState :=
  match sptFind s p upage with
  | none => (none, s)
  | some i => (some i, { s with spt := Function.update s.spt p ((s.spt p).erase i) })

/-- One round of the rollback, `vm/mmap.c:71–76`. -/
def mmapRollbackPage (p : Pid) (upage : Addr) (s : VmState) : VmState :=
  match sptDelete p upage s with
  | (none, s) => s
  | (some i, s) => s.freeSpte i

/-- The rollback of the first `n` pages of a mapping, `vm/mmap.c:69–77`. -/
def mmapRollback (p : Pid) (addr : Addr) (n : Nat) (s : VmState) : VmState :=
  (List.range n).foldl (fun s j => mmapRollbackPage p (mmapPage addr j) s) s

/-- The insertion loop with `left` pages to go from page `n` on, `vm/mmap.c:64–99`. -/
def mmapInsert (p : Pid) (m : MmapEntry) : (left n : Nat) → VmState → Bool × VmState
  | 0, _, s => (true, s)
  | left + 1, n, s =>
    match s.mallocSpte.1 with
    | none => (false, mmapRollback p m.addr n s.mallocSpte.2)
    | some i =>
      mmapInsert p m left (n + 1)
        (sptInsertPage p i (s.mallocSpte.2.newSpte i (mmapSpte p m n))).2

/-- The address checks of `vm/mmap.c:27–31`. -/
def mmapAddrOk (addr : Addr) : Bool :=
  addr != 0 && isUserVaddr addr && pgOfs addr == 0 &&
    !decide (addr < BitVec.ofNat 32 PGSIZE) && !decide (STACK_LIMIT ≤ addr)

/-- Every page of the range is a user page without an entry, `vm/mmap.c:39–46`. -/
def mmapRangeFree (s : VmState) (p : Pid) (addr : Addr) (pages : Nat) : Bool :=
  (List.range pages).all fun n =>
    isUserVaddr (mmapPage addr n) && (sptLookup s p (mmapPage addr n)).isNone

/-- The file behind a descriptor that may be mapped, `vm/mmap.c:24–25`. -/
def mmapFile (s : VmState) (p : Pid) (fd : Int) : Option FileAddr :=
  if fd < 2 ∨ (MAX_FD_COUNT : Int) ≤ fd then none else s.fdTable p fd.toNat

/-- The part of `mmap_map` after its checks, `vm/mmap.c:48–101`. -/
def mmapCreate (p : Pid) (file : FileAddr) (addr : Addr) (fileSize : Nat) (s : VmState) :
    Option (Option Nat × VmState) := do
  if s.takeHeap.1.isNone then some (none, s.takeHeap.2)
  else
    match ← fileReopen file s.takeHeap.2 with
    | (none, s) => some (none, s)
    | (some mmapFile, s) =>
      let m : MmapEntry := { mapid := s.nextMapid p, file := mmapFile, addr, size := fileSize }
      let s := { s with nextMapid := Function.update s.nextMapid p (s.nextMapid p + 1) }
      match mmapInsert p m (mmapPageCount fileSize) 0 s with
      | (true, s) =>
        some (some m.mapid,
          { s with mmapList := Function.update s.mmapList p (s.mmapList p ++ [m]) })
      | (false, s) => (fileClose mmapFile s).map (none, ·)

/-- `mmap_map` run by process `p`; `none` as its value is `MAP_FAILED`, `vm/mmap.c:18–102`. -/
def mmapMap (p : Pid) (fd : Int) (addr : Addr) (s : VmState) :
    Option (Option Nat × VmState) :=
  match mmapFile s p fd with
  | none => some (none, s)
  | some file =>
    if mmapAddrOk addr then do
      let fileSize ← fileLength file s
      if fileSize ≠ 0 ∧ mmapRangeFree s p addr (mmapPageCount fileSize) then
        mmapCreate p file addr fileSize s
      else some (none, s)
    else some (none, s)

/-- The bytes of a page as a buffer. -/
def pageBytes (page : PageData) : Nat → UInt8 := fun j =>
  if h : j < PGSIZE then page ⟨j, h⟩ else 0

/-- `file_write_at` of a page's valid bytes to the place the entry gives. -/
def writeBack (e : SptEntry) (page : PageData) (s : VmState) : Option VmState := do
  let file ← e.file
  let (_, s) ← fileWriteAt file (pageBytes page) e.readBytes e.fileOffset s
  some s

/-- Write a resident page back if it was written or has been in swap, `vm/mmap.c:125–126`. -/
def mmapWriteBack (e : SptEntry) (pd : PageDir) (page : PageData) (s : VmState) :
    Option VmState :=
  if pagedirIsDirty pd e.upage || e.type == .swap then writeBack e page s else some s

/-- Free the slot of a page that is marked as being in swap, unless the number is 0,
`vm/mmap.c:129–130`, `vm/page.c:55–56`. -/
def freeSlotOf (e : SptEntry) (s : VmState) : Option VmState :=
  if e.type = .swap ∧ e.swapSlot ≠ 0 then swapFree e.swapSlot s else some s

/-- Release a resident page of a mapping, `vm/mmap.c:125–130`. -/
def mmapReleaseFrame (e : SptEntry) (f : FrameAddr) (s : VmState) : Option VmState := do
  let fr ← s.frame f
  let (q, pd) ← ownerPagedir s e
  let s ← mmapWriteBack e pd (s.mem fr.kpage) s
  let s ← frameFree f (s.setPagedir q (pagedirClearPage pd e.upage))
  freeSlotOf e s

/-- Copy a swapped page to the file, if a page to copy through can be had,
`vm/mmap.c:134–140`. -/
def mmapCopySlot (e : SptEntry) (s : VmState) : Option VmState :=
  if s.takeHeap.1.isSome then (swapRead e.swapSlot s).bind fun page => writeBack e page s.takeHeap.2
  else some s.takeHeap.2

/-- Release what a page of a mapping holds, `vm/mmap.c:123–142`. -/
def mmapRelease (e : SptEntry) (s : VmState) : Option VmState :=
  match e.frame with
  | some f => mmapReleaseFrame e f s
  | none =>
    if e.type = .swap then (mmapCopySlot e s).bind (swapFree e.swapSlot) else some s

/-- One round of `mmap_unmap`, `vm/mmap.c:116–144`. -/
def mmapUnmapPage (p : Pid) (upage : Addr) (s : VmState) : Option VmState :=
  match sptDelete p upage s with
  | (none, s) => some s
  | (some i, s) => do
    let e ← s.spte i
    let s ← mmapRelease e s
    some (s.freeSpte i)

/-- `mmap_unmap` run by process `p`, `vm/mmap.c:104–149`. -/
def mmapUnmap (p : Pid) (mapid : Int) (s : VmState) : Option VmState :=
  match (s.mmapList p).find? fun m => (m.mapid : Int) == mapid with
  | none => some s
  | some m => do
    let s ← run (fun s n => mmapUnmapPage p (mmapPage m.addr n) s) s
      (List.range (mmapPageCount m.size))
    let s ← fileClose m.file s
    some { s with
      mmapList := Function.update s.mmapList p
        ((s.mmapList p).eraseP fun m => (m.mapid : Int) == mapid) }

/-- `munmap_all`; each round takes one mapping off the list, `vm/mmap.c:151–161`. -/
def munmapAll (p : Pid) : (fuel : Nat) → VmState → Option VmState
  | 0, s => if (s.mmapList p).isEmpty then some s else none
  | fuel + 1, s =>
    match s.mmapList p with
    | [] => some s
    | m :: _ => (mmapUnmap p m.mapid s).bind (munmapAll p fuel)

end Pintos.Vm

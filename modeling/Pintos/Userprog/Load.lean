import Pintos.Userprog.Exit

/-!
# Loading an executable

`load` with its ELF checks, `load_segment` and `setup_stack`. All arithmetic on header fields
is modulo `2 ^ 32`. The arguments that `setup_stack` pushes are stores through the user
mapping it has made, and are left to the steps that model such stores.
Source `userprog/process.c:335–681`.
-/

namespace Pintos.Userprog

open Pintos.Base Pintos.Threads Pintos.Vm Pintos.Filesys

/-- A program header, the fields `load` uses, `userprog/process.c:371–381`. -/
structure Elf32Phdr where
  pType : Addr
  pOffset : Addr
  pVaddr : Addr
  pFilesz : Addr
  pMemsz : Addr
  pFlags : Addr

/-- A little-endian number of `n` bytes. -/
def readLe (bytes : Nat → UInt8) (at_ : Nat) : (n : Nat) → Nat
  | 0 => 0
  | n + 1 => (bytes at_).toNat + 256 * readLe bytes (at_ + 1) n

/-- A 32-bit header field. -/
def elfWord (bytes : Nat → UInt8) (at_ : Nat) : Addr := BitVec.ofNat 32 (readLe bytes at_ 4)

/-- Segment types and the write flag, `userprog/process.c:383–396`. -/
def PT_LOAD : Addr := 1
@[inherit_doc PT_LOAD] def PT_DYNAMIC : Addr := 2
@[inherit_doc PT_LOAD] def PT_INTERP : Addr := 3
@[inherit_doc PT_LOAD] def PT_SHLIB : Addr := 5
@[inherit_doc PT_LOAD] def PF_W : Addr := 2

/-- The bytes of a program header decoded. -/
def readPhdr (bytes : Nat → UInt8) : Elf32Phdr where
  pType := elfWord bytes 0
  pOffset := elfWord bytes 4
  pVaddr := elfWord bytes 8
  pFilesz := elfWord bytes 16
  pMemsz := elfWord bytes 20
  pFlags := elfWord bytes 24

/-- Size of the executable header, `sizeof ehdr`. -/
def EHDR_SIZE : Nat := 52

/-- Size of a program header, `sizeof phdr`. -/
def PHDR_SIZE : Nat := 32

/-- The checks on the executable header, `userprog/process.c:439–445`. -/
def ehdrOk (bytes : Nat → UInt8) : Bool :=
  (List.range 7).map bytes == [0x7f, 0x45, 0x4c, 0x46, 1, 1, 1] &&
    readLe bytes 16 2 == 2 && readLe bytes 18 2 == 3 && readLe bytes 20 4 == 1 &&
    readLe bytes 42 2 == PHDR_SIZE && decide (readLe bytes 44 2 ≤ 1024)

/-- `validate_segment`, `userprog/process.c:530–571`. -/
def validateSegment (phdr : Elf32Phdr) (fileLength : Nat) : Bool :=
  pgOfs phdr.pOffset == pgOfs phdr.pVaddr && decide (phdr.pOffset.toNat ≤ fileLength) &&
    !decide (phdr.pMemsz < phdr.pFilesz) && phdr.pMemsz != 0 &&
    isUserVaddr phdr.pVaddr && isUserVaddr (phdr.pVaddr + phdr.pMemsz) &&
    !decide (phdr.pVaddr + phdr.pMemsz < phdr.pVaddr) &&
    !decide (phdr.pVaddr < BitVec.ofNat 32 PGSIZE)

/-- The fields of one page of a segment, `userprog/process.c:600–622`; `pagedir` stays unset. -/
def segmentSpte (file : FileAddr) (ofs upage readBytes : Addr) (writable : Bool) : SptEntry :=
  let pageReadBytes := if readBytes.toNat < PGSIZE then readBytes.toNat else PGSIZE
  { upage := upage
    type := if 0 < pageReadBytes then .file else .zero
    writable := writable
    file := some file
    fileOffset := ofs.toNat
    readBytes := pageReadBytes
    zeroBytes := PGSIZE - pageReadBytes
    swapSlot := 0
    frame := none
    pagedir := none
    mapid := 0 }

/-- The loop of `load_segment`, `userprog/process.c:595–635`; a segment has at most
`2 ^ 20` pages. -/
def loadSegmentLoop (p : Pid) (file : FileAddr) (writable : Bool) :
    (fuel : Nat) → (ofs upage readBytes zeroBytes : Addr) → VmState → Option (Bool × VmState)
  | 0, _, _, _, _, _ => none
  | fuel + 1, ofs, upage, readBytes, zeroBytes, s =>
    if readBytes = 0 ∧ zeroBytes = 0 then some (true, s)
    else
      let e := segmentSpte file ofs upage readBytes writable
      match s.mallocSpte.1 with
      | none => some (false, s.mallocSpte.2)
      | some i =>
        match sptInsertPage p i (s.mallocSpte.2.newSpte i e) with
        | (false, s) => some (false, s.freeSpte i)
        | (true, s) =>
          loadSegmentLoop p file writable fuel (ofs + BitVec.ofNat 32 PGSIZE)
            (upage + BitVec.ofNat 32 PGSIZE) (readBytes - BitVec.ofNat 32 e.readBytes)
            (zeroBytes - BitVec.ofNat 32 e.zeroBytes) s

/-- `load_segment` with its assertions, `userprog/process.c:587–637`. -/
def loadSegment (p : Pid) (file : FileAddr) (ofs upage readBytes zeroBytes : Addr)
    (writable : Bool) (s : VmState) : Option (Bool × VmState) :=
  if pgOfs (readBytes + zeroBytes) = 0 ∧ pgOfs upage = 0 ∧ pgOfs ofs = 0 then
    loadSegmentLoop p file writable (2 ^ 20 + 1) ofs upage readBytes zeroBytes s
  else none

/-- `ROUND_UP (x, PGSIZE)` on 32 bits, `lib/round.h`. -/
def roundUp (x : Addr) : Addr := pgRoundDown (x + BitVec.ofNat 32 (PGSIZE - 1))

/-- A `PT_LOAD` header: validated and mapped, `userprog/process.c:477–506`. -/
def loadPhdr (p : Pid) (file : FileAddr) (phdr : Elf32Phdr) (s : VmState) :
    Option (Bool × VmState) := do
  let length ← fileLength file s
  if validateSegment phdr length then
    let pageOffset := pgOfs phdr.pVaddr
    let readBytes := if 0 < phdr.pFilesz then pageOffset + phdr.pFilesz else 0
    let zeroBytes := roundUp (pageOffset + phdr.pMemsz) - readBytes
    loadSegment p file (pgRoundDown phdr.pOffset) (pgRoundDown phdr.pVaddr) readBytes zeroBytes
      (phdr.pFlags &&& PF_W != 0) s
  else some (false, s)

/-- The `switch` on a program header's type; false stands for `goto done`,
`userprog/process.c:464–507`. -/
def loadPhdrByType (p : Pid) (file : FileAddr) (phdr : Elf32Phdr) (s : VmState) :
    Option (Bool × VmState) :=
  if phdr.pType = PT_LOAD then loadPhdr p file phdr s
  else some (phdr.pType ∉ [PT_DYNAMIC, PT_INTERP, PT_SHLIB], s)

/-- The program header loop with `left` headers to go, `userprog/process.c:453–508`. The file
offset is a signed 32-bit number. -/
def loadPhdrs (p : Pid) (file : FileAddr) : (left : Nat) → (fileOfs : Addr) → VmState →
    Option (Bool × VmState)
  | 0, _, s => some (true, s)
  | left + 1, fileOfs, s => do
    let length ← fileLength file s
    if fileOfs.toInt < 0 ∨ (length : Int) < fileOfs.toInt then some (false, s)
    else
      let s ← fileSeek file fileOfs.toNat s
      let (n, bytes, s) ← fileRead file PHDR_SIZE s
      if n ≠ PHDR_SIZE then some (false, s)
      else
        let (ok, s) ← loadPhdrByType p file (readPhdr bytes) s
        if ok then loadPhdrs p file left (fileOfs + BitVec.ofNat 32 PHDR_SIZE) s
        else some (false, s)

/-- `setup_stack` up to the first argument, `userprog/process.c:641–681`. -/
def setupStack (p : Pid) (r : Replacement) (s : VmState) : Option (Bool × VmState) := do
  let (f, s) ← frameAlloc r s
  let fr ← s.frame f
  let pd ← s.pagedir p
  let upage := PHYS_BASE - BitVec.ofNat 32 PGSIZE
  match installPage s.takeHeap.1.isSome pd upage fr.kpage true with
  | none => (frameFree f s.takeHeap.2).map (false, ·)
  | some pd =>
    let s := s.takeHeap.2.setPagedir p pd
    match s.mallocSpte.1 with
    | none => (frameFree f s.mallocSpte.2).map (false, ·)
    | some i =>
      let e := { stackSpte p upage with frame := some f }
      let s := (s.mallocSpte.2.newSpte i e).setFrame f { fr with spte := some i }
      match sptInsertPage p i s with
      | (true, s) => some (true, s)
      | (false, s) => (frameFree f (s.freeSpte i)).map (false, ·)

/-- The part of `load` that reads the file, `userprog/process.c:438–518`. -/
def loadFile (p : Pid) (file : FileAddr) (r : Replacement) (s : VmState) :
    Option (Bool × VmState) := do
  let (n, ehdr, s) ← fileRead file EHDR_SIZE s
  if n = EHDR_SIZE ∧ ehdrOk ehdr then
    let (ok, s) ← loadPhdrs p file (readLe ehdr 44 2) (elfWord ehdr 28) s
    if ok then setupStack p r s else some (false, s)
  else some (false, s)

/-- `load` of the executable that the name resolves to, `userprog/process.c:408–525`. -/
def load (p : Pid) (inode : Option InodeNo) (r : Replacement) (s : VmState) :
    Option (Bool × VmState) :=
  if s.takeHeap.1.isNone then some (false, s.takeHeap.2)
  else
    match filesysOpen inode (s.takeHeap.2.setPagedir p pagedirCreate) with
    | (none, s) => some (false, s)
    | (some file, s) => do
      let s ← fileDenyWrite file s
      let s := { s with executable := Function.update s.executable p (some file) }
      match ← loadFile p file r s with
      | (true, s) => some (true, s)
      | (false, s) => (fileClose file s).map (false, ·)

/-- The tables of a new process, `init_process`, `userprog/process.c:43–63`. -/
def initProcess (p : Pid) (s : VmState) : VmState :=
  { s with
    spt := Function.update s.spt p []
    mmapList := Function.update s.mmapList p []
    nextMapid := Function.update s.nextMapid p 1
    fdTable := Function.update s.fdTable p fun _ => none }

end Pintos.Userprog

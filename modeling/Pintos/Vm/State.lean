import Mathlib.Logic.Function.Basic
import Pintos.Filesys.Inode
import Pintos.Lib.Bitmap
import Pintos.Userprog.Pagedir

/-!
# The state of the virtual memory system

The kernel objects that `vm/page.c`, `vm/frame.c`, `vm/swap.c`, `vm/mmap.c` and the page fault
handler share, as one flat record. Kernel objects are named by the address the allocator
returned for them. Functions that panic, fail an assertion, spin forever or follow a pointer
to a freed object have the result `none`.
Source `vm/page.h:10–31`, `vm/frame.h:8–14`, `vm/mmap.h:12–19`,
`vm/frame.c:12–14`, `vm/swap.c:9–11`, `filesys/file.c:7–12`.
-/

namespace Pintos.Vm

open Pintos.Threads Pintos.Userprog Pintos.Lib Pintos.Filesys

/-- A process, which also names its page directory. -/
abbrev Pid := Nat

/-- The address of a `struct spt_entry`. -/
abbrev SpteAddr := Nat

/-- The address of a `struct frame`. -/
abbrev FrameAddr := Nat

/-- The address of a `struct file`. -/
abbrev FileAddr := Nat

/-- The number of an inode. -/
abbrev InodeNo := Nat

/-- The bytes of one page. -/
abbrev PageData := Fin PGSIZE → UInt8

/-- The bytes of one sector of the swap device. -/
abbrev SectorData := Fin BLOCK_SECTOR_SIZE → UInt8

/-- Where the bytes of a non-resident page come from, `vm/page.h:10–15`. -/
inductive PageType where
  | zero
  | file
  | swap
  deriving DecidableEq, Repr

/-- An entry of a supplemental page table, `vm/page.h:17–31`. `pagedir` is `none` as long as
`load_segment` has left the field unset. -/
structure SptEntry where
  upage : Addr
  type : PageType
  writable : Bool
  file : Option FileAddr
  fileOffset : Nat
  readBytes : Nat
  zeroBytes : Nat
  swapSlot : Nat
  frame : Option FrameAddr
  pagedir : Option Pid
  mapid : Nat

/-- A frame, `vm/frame.h:8–14`. -/
structure Frame where
  kpage : KPage
  spte : Option SpteAddr
  pinned : Bool

/-- The `clock_hand` pointer: null, the tail of the frame table, or a list element,
`vm/frame.c:14`. -/
inductive ClockHand where
  | null
  | tail
  | elem (f : FrameAddr)
  deriving DecidableEq, Repr

/-- A memory mapping, `vm/mmap.h:12–19`. -/
structure MmapEntry where
  mapid : Nat
  file : FileAddr
  addr : Addr
  size : Nat

/-- An open file, `filesys/file.c:7–12`. -/
structure File where
  inode : InodeNo
  pos : Nat
  denyWrite : Bool

/-- What has happened to swap slots: a new entry was allocated, `swap_alloc` returned a slot
for an entry, or a slot was passed to `swap_free`. -/
inductive SwapEvent where
  | birth (spte : SpteAddr)
  | alloc (spte : SpteAddr) (slot : Nat)
  | free (slot : Nat)
  deriving DecidableEq, Repr

/-- The shared state. The last two fields are not kernel data: `heap` lists the answers the
kernel allocator is going to give (`none` for a null pointer), and `swapLog` records the
events of swap slots so far, latest first. The `int` that numbers the mappings of a process is a
natural number: it does not wrap before `2 ^ 31` mappings. -/
structure VmState where
  spte : SpteAddr → Option SptEntry
  frame : FrameAddr → Option Frame
  frameTable : List FrameAddr
  clockHand : ClockHand
  spt : Pid → List SpteAddr
  pagedir : Pid → Option PageDir
  userEsp : Pid → Addr
  mmapList : Pid → List MmapEntry
  nextMapid : Pid → Nat
  fdTable : Pid → Nat → Option FileAddr
  executable : Pid → Option FileAddr
  file : FileAddr → Option File
  inode : InodeNo → Inode
  mem : KPage → PageData
  userPool : Bitmap
  swapBitmap : Bitmap
  swapDevice : Nat → SectorData
  heap : Nat → Option Nat
  swapLog : List SwapEvent

/-- The state before the first process: no kernel object is allocated, the `pages` pages of
the user pool and the `slots` slots of the swap device are free. -/
def VmState.init (pages slots : Nat) (mem : KPage → PageData) (device : Nat → SectorData)
    (inode : InodeNo → Inode) (heap : Nat → Option Nat) : VmState where
  spte := fun _ => none
  frame := fun _ => none
  frameTable := []
  clockHand := .null
  spt := fun _ => []
  pagedir := fun _ => none
  userEsp := fun _ => 0
  mmapList := fun _ => []
  nextMapid := fun _ => 1
  fdTable := fun _ _ => none
  executable := fun _ => none
  file := fun _ => none
  inode := inode
  mem := mem
  userPool := List.replicate pages false
  swapBitmap := List.replicate slots false
  swapDevice := device
  heap := heap
  swapLog := []

namespace VmState

/-- The allocator's next answer. -/
def takeHeap (s : VmState) : Option Nat × VmState :=
  (s.heap 0, { s with heap := fun n => s.heap (n + 1) })

/-- `malloc` of a `struct spt_entry`; an address in use is never returned. -/
def mallocSpte (s : VmState) : Option SpteAddr × VmState :=
  (s.takeHeap.1.filter fun a => (s.spte a).isNone, s.takeHeap.2)

/-- `malloc` of a `struct frame`. -/
def mallocFrame (s : VmState) : Option FrameAddr × VmState :=
  (s.takeHeap.1.filter fun a => (s.frame a).isNone, s.takeHeap.2)

/-- `calloc` of a `struct file`. -/
def callocFile (s : VmState) : Option FileAddr × VmState :=
  (s.takeHeap.1.filter fun a => (s.file a).isNone, s.takeHeap.2)

/-- Fill in an entry just returned by `malloc`. -/
def newSpte (s : VmState) (i : SpteAddr) (e : SptEntry) : VmState :=
  { s with spte := Function.update s.spte i (some e), swapLog := .birth i :: s.swapLog }

/-- Store an entry's fields. -/
def setSpte (s : VmState) (i : SpteAddr) (e : SptEntry) : VmState :=
  { s with spte := Function.update s.spte i (some e) }

/-- `free` of an entry. -/
def freeSpte (s : VmState) (i : SpteAddr) : VmState :=
  { s with spte := Function.update s.spte i none }

/-- Store a frame's fields. -/
def setFrame (s : VmState) (f : FrameAddr) (fr : Frame) : VmState :=
  { s with frame := Function.update s.frame f (some fr) }

/-- Store a process's page directory. -/
def setPagedir (s : VmState) (p : Pid) (pd : PageDir) : VmState :=
  { s with pagedir := Function.update s.pagedir p (some pd) }

/-- Store the bytes of a page of memory. -/
def setMem (s : VmState) (k : KPage) (d : PageData) : VmState :=
  { s with mem := Function.update s.mem k d }

end VmState

/-- `palloc_get_page (PAL_USER)`, first fit in the user pool, `threads/palloc.c:77–114`. -/
def pallocGetUserPage (s : VmState) : Option (KPage × VmState) :=
  match bitmapScanAndFlip s.userPool 0 1 false with
  | none => none
  | some (k, pool) => some (k, { s with userPool := pool })

/-- `palloc_free_page` on a user page: the page has to be allocated, and its bytes are
overwritten, `threads/palloc.c:117–143`. -/
def pallocFreeUserPage (s : VmState) (k : KPage) : Option VmState :=
  if bitmapTest s.userPool k then
    some { s with
      userPool := bitmapSet s.userPool k false
      mem := Function.update s.mem k fun _ => 0xcc }
  else none

end Pintos.Vm

import Pintos.Filesys.File
import Pintos.Vm.Frame

/-!
# Supplemental page tables

Lookup and insertion of entries, loading a page for the running process, and unpinning.
A supplemental page table is the list of its entries; `hash_find` and `hash_insert` compare
the `upage` field. Source `vm/page.c:29–171`.
-/

namespace Pintos.Vm

open Pintos.Threads Pintos.Userprog Pintos.Lib Pintos.Filesys

/-- The lowest address of the stack area, `PHYS_BASE - 0x800000`. -/
def STACK_LIMIT : Addr := PHYS_BASE - 0x800000#32

/-- The stack area test of `vm/page.c:70`, `userprog/exception.c:171,229`. -/
def isStackPage (upage : Addr) : Bool := decide (STACK_LIMIT ≤ upage) && decide (upage < PHYS_BASE)

/-- `hash_find` in a process's table: the entry whose `upage` is the given address. -/
def sptFind (s : VmState) (p : Pid) (upage : Addr) : Option SpteAddr :=
  (s.spt p).find? fun i => (s.spte i).any fun e => e.upage == upage

/-- `spt_lookup`, `vm/page.c:29–36`. -/
def sptLookup (s : VmState) (p : Pid) (upage : Addr) : Option SpteAddr :=
  sptFind s p (pgRoundDown upage)

/-- `spt_insert_page`, `vm/page.c:38–43`. -/
def sptInsertPage (p : Pid) (i : SpteAddr) (s : VmState) : Bool × VmState :=
  match s.spte i with
  | none => (false, s)
  | some e =>
    if (sptFind s p e.upage).isSome then (false, s)
    else (true, { s with spt := Function.update s.spt p (i :: s.spt p) })

/-- The fields of a new stack page, `vm/page.c:79–89`, `userprog/exception.c:244–254`,
`userprog/process.c:661–671`. -/
def stackSpte (p : Pid) (upage : Addr) : SptEntry where
  upage := upage
  type := .zero
  writable := true
  file := none
  fileOffset := 0
  readBytes := 0
  zeroBytes := PGSIZE
  swapSlot := 0
  frame := none
  pagedir := some p
  mapid := 0

/-- Add a stack page to the table, `vm/page.c:75–91`, `userprog/exception.c:237–256`. -/
def growStack (p : Pid) (upage : Addr) (s : VmState) : Option SpteAddr × VmState :=
  match s.mallocSpte.1 with
  | none => (none, s.mallocSpte.2)
  | some i => (some i, (sptInsertPage p i (s.mallocSpte.2.newSpte i (stackSpte p upage))).2)

/-- The entry `vm_load_page` is going to load, found or added, `vm/page.c:66–95`. -/
def vmFindSpte (p : Pid) (upage : Addr) (s : VmState) : Option SpteAddr × VmState :=
  match sptLookup s p upage with
  | some i => (some i, s)
  | none =>
    if isStackPage upage then
      if upage < s.userEsp p - 32#32 then (none, s) else growStack p upage s
    else (none, s)

/-- The first `n` bytes of a page replaced. -/
def copyBytes (n : Nat) (bytes : Nat → UInt8) (page : PageData) : PageData := fun j =>
  if j.val < n then bytes j.val else page j

/-- Fill the frame's page from where the entry says its bytes are, `vm/page.c:104–119`; the
result is false if the file is too short. -/
def vmReadPage (e : SptEntry) (k : KPage) (s : VmState) : Option (Bool × VmState) :=
  match e.type with
  | .zero => some (true, s)
  | .file => do
    let f ← e.file
    let s ← fileSeek f e.fileOffset s
    let (n, bytes, s) ← fileReadAt f e.readBytes e.fileOffset s
    some (n == e.readBytes, s.setMem k (copyBytes n bytes (s.mem k)))
  | .swap => do
    let page ← swapRead e.swapSlot s
    some (true, s.setMem k page)

/-- Map a filled frame for its entry and link the two, or give the frame back,
`vm/page.c:121–129`, `userprog/exception.c:294–303`. -/
def attachFrame (p : Pid) (i : SpteAddr) (f : FrameAddr) (s : VmState) :
    Option (Bool × VmState) := do
  let e ← s.spte i
  let fr ← s.frame f
  let pd ← s.pagedir p
  match installPage s.takeHeap.1.isSome pd e.upage fr.kpage e.writable with
  | none => (frameFree f s.takeHeap.2).map (false, ·)
  | some pd =>
    let s := s.takeHeap.2
    some (true, { s with
      pagedir := Function.update s.pagedir p (some pd)
      spte := Function.update s.spte i (some { e with frame := some f, pagedir := some p })
      frame := Function.update s.frame f (some { fr with spte := some i }) })

/-- Set a frame's `pinned`. -/
def setPinned (f : FrameAddr) (pinned : Bool) (s : VmState) : VmState :=
  { s with frame := Function.update s.frame f ((s.frame f).map fun fr => { fr with pinned }) }

/-- The loading part of `vm_load_page` for an entry that is not resident, `vm/page.c:99–133`. -/
def vmLoadSpte (p : Pid) (i : SpteAddr) (pin : Bool) (r : Replacement) (s : VmState) :
    Option (Bool × VmState) := do
  let (f, s) ← frameAlloc r s
  let fr ← s.frame f
  let e ← s.spte i
  let (ok, s) ← vmReadPage e fr.kpage s
  if ok then
    let (ok, s) ← attachFrame p i f s
    some (ok, if ok && pin then setPinned f true s else s)
  else (frameFree f s).map (false, ·)

/-- `vm_load_page` run by process `p`, `vm/page.c:60–134`. -/
def vmLoadPage (p : Pid) (upage : Addr) (pin : Bool) (r : Replacement) (s : VmState) :
    Option (Bool × VmState) :=
  match vmFindSpte p (pgRoundDown upage) s with
  | (none, s) => some (false, s)
  | (some i, s) => do
    let e ← s.spte i
    if e.frame.isSome then some (true, s) else vmLoadSpte p i pin r s

/-- The pages a loop `for (p = start; p <= end; p += PGSIZE)` visits, with `start` and `end`
rounded down from the first and the last byte; none if `end` has wrapped below `start`. -/
def pageRange (addr size : Addr) : List Addr :=
  let start := pgRoundDown addr
  let last := pgRoundDown (addr + size - 1)
  if start ≤ last then
    (List.range ((last.toNat - start.toNat) / PGSIZE + 1)).map fun n =>
      start + BitVec.ofNat 32 (n * PGSIZE)
  else []

/-- One round of `vm_unpin_range`, `vm/page.c:167–169`. -/
def vmUnpinPage (p : Pid) (upage : Addr) (s : VmState) : VmState :=
  match (sptLookup s p upage).bind s.spte with
  | some e => e.frame.elim s fun f => setPinned f false s
  | none => s

/-- `vm_unpin_range`, `vm/page.c:156–171`. -/
def vmUnpinRange (p : Pid) (addr size : Addr) (s : VmState) : VmState :=
  if size = 0 then s else (pageRange addr size).foldl (fun s upage => vmUnpinPage p upage s) s

end Pintos.Vm

import Pintos.Userprog.Exception
import Pintos.Userprog.Load

/-!
# The memory system as a state machine

One step is one operation of one process run to completion: starting a program, a system
call or a part of one that moves pages, a user access, a page fault the MMU raises, the end
of the process. A step is `none` where the kernel stops, or where the machine cannot take it.
-/

namespace Pintos.Vm

open Pintos.Threads Pintos.Userprog Pintos.Filesys

/-- The operations of a running process. -/
inductive Call where
  /-- Enter the kernel by a system call: `user_esp` is saved, `userprog/syscall.c:382`. -/
  | enter (esp : Addr)
  /-- `syscall_open` of a name that resolves to the inode. -/
  | openFile (inode : Option InodeNo)
  /-- `syscall_close`. -/
  | close (fd : Int)
  /-- A store through the user mapping. -/
  | store (uaddr : Addr) (byte : UInt8)
  /-- A load through the user mapping. -/
  | fetch (uaddr : Addr)
  /-- An access that the MMU refuses. -/
  | fault (flt : Fault) (write : Bool) (r : Replacement)
  | vmLoadPage (upage : Addr) (pin : Bool) (r : Replacement)
  | vmUnpinRange (addr size : Addr)
  | mmapMap (fd : Int) (addr : Addr)
  | mmapUnmap (mapid : Int)
  | exit

/-- The operations of the system. -/
inductive Op where
  /-- Start a program: only a successful `load` gives a process. -/
  | exec (p : Pid) (inode : Option InodeNo) (r : Replacement)
  | call (p : Pid) (c : Call)

/-- The first free descriptor, `userprog/syscall.c:157–165`. -/
def freeFd (s : VmState) (p : Pid) : Option Nat :=
  (List.range' 2 (MAX_FD_COUNT - 2)).find? fun fd => (s.fdTable p fd).isNone

/-- Store a descriptor. -/
def setFd (p : Pid) (fd : Nat) (f : Option FileAddr) (s : VmState) : VmState :=
  { s with fdTable := Function.update s.fdTable p (Function.update (s.fdTable p) fd f) }

/-- `syscall_open`, `userprog/syscall.c:148–176`. -/
def syscallOpen (p : Pid) (inode : Option InodeNo) (s : VmState) : Option VmState :=
  match filesysOpen inode s with
  | (none, s) => some s
  | (some f, s) =>
    match freeFd s p with
    | some fd => some (setFd p fd (some f) s)
    | none => fileClose f s

/-- `syscall_close`, `userprog/syscall.c:357–375`. -/
def syscallClose (p : Pid) (fd : Int) (s : VmState) : Option VmState :=
  if 0 ≤ fd ∧ fd < MAX_FD_COUNT then
    match s.fdTable p fd.toNat with
    | some f => fileClose f (setFd p fd.toNat none s)
    | none => some s
  else some s

/-- A store by the MMU: the page has to be present and writable. -/
def mmuStore (p : Pid) (uaddr : Addr) (byte : UInt8) (s : VmState) : Option VmState := do
  let pd ← s.pagedir p
  let k ← pagedirGetPage pd uaddr
  if mmuWritable pd uaddr then
    let ofs : Fin PGSIZE := ⟨(pgOfs uaddr).toNat, by rw [toNat_pgOfs]; exact Nat.mod_lt _ (by decide)⟩
    some ((s.setPagedir p (mmuAccess pd uaddr true)).setMem k
      (Function.update (s.mem k) ofs byte))
  else none

/-- A load by the MMU: the page has to be present. -/
def mmuFetch (p : Pid) (uaddr : Addr) (s : VmState) : Option (UInt8 × VmState) := do
  let pd ← s.pagedir p
  let k ← pagedirGetPage pd uaddr
  let ofs : Fin PGSIZE := ⟨(pgOfs uaddr).toNat, by rw [toNat_pgOfs]; exact Nat.mod_lt _ (by decide)⟩
  some (s.mem k ofs, s.setPagedir p (mmuAccess pd uaddr false))

/-- The MMU refuses the access, and reports an absent user page as absent. -/
def mmuFaults (pd : PageDir) (flt : Fault) (write : Bool) : Bool :=
  ((pagedirGetPage pd flt.addr).isNone || (write && !mmuWritable pd flt.addr)) &&
    (!isUserVaddr flt.addr || flt.notPresent == (pagedirGetPage pd flt.addr).isNone)

/-- A page fault to its end, which may be the end of the process. -/
def faultStep (p : Pid) (flt : Fault) (write : Bool) (r : Replacement) (s : VmState) :
    Option VmState := do
  let pd ← s.pagedir p
  if mmuFaults pd flt write then
    match ← pageFault p flt r s with
    | (.resume, s) => some s
    | (.exit, s) => exitProcess p s
  else none

/-- One operation of process `p`. -/
def call (p : Pid) (c : Call) (s : VmState) : Option VmState :=
  match c with
  | .enter esp => some { s with userEsp := Function.update s.userEsp p esp }
  | .openFile inode => syscallOpen p inode s
  | .close fd => syscallClose p fd s
  | .store uaddr byte => mmuStore p uaddr byte s
  | .fetch uaddr => (mmuFetch p uaddr s).map Prod.snd
  | .fault flt write r => faultStep p flt write r s
  | .vmLoadPage upage pin r => (vmLoadPage p upage pin r s).map Prod.snd
  | .vmUnpinRange addr size => some (vmUnpinRange p addr size s)
  | .mmapMap fd addr => (mmapMap p fd addr s).map Prod.snd
  | .mmapUnmap mapid => mmapUnmap p mapid s
  | .exit => exitProcess p s

/-- Start a program in a process that does not exist yet. -/
def execProcess (p : Pid) (inode : Option InodeNo) (r : Replacement) (s : VmState) :
    Option VmState :=
  if (s.pagedir p).isNone then
    match load p inode r (initProcess p s) with
    | some (true, s) => some s
    | _ => none
  else none

/-- One step of the system. Only a process with a page directory runs. -/
def step (s : VmState) : Op → Option VmState
  | .exec p inode r => execProcess p inode r s
  | .call p c => if (s.pagedir p).isSome then call p c s else none

/-- An executable that consists of its header: a process that runs it has a stack page only. -/
def emptyProgram : Inode where
  length := EHDR_SIZE
  data := fun j => ([0x7f, 0x45, 0x4c, 0x46, 1, 1, 1, 0, 0, 0, 0, 0, 0, 0, 0, 0, 2, 0, 3, 0, 1, 0, 0,
    0, 0, 0, 0, 0, 0, 0, 0, 0, 0, 0, 0, 0, 0, 0, 0, 0, 52, 0, 32] : List UInt8).getD j 0
  openCnt := 0
  denyWriteCnt := 0

/-- A machine for concrete runs: every file is `emptyProgram`, and the allocator never fails. -/
def smallMachine (pages slots : Nat) : VmState :=
  VmState.init pages slots (fun _ _ => 0) (fun _ _ => 0) (fun _ => emptyProgram) fun n => some (n + 1)

end Pintos.Vm

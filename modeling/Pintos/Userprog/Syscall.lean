import Pintos.Base.Loop
import Pintos.Vm.System

/-!
# The read and write system calls

How the two calls check their buffer, pin it and move the bytes. The kernel accesses the buffer
through the process's own mapping, so that an access can fault. Both calls hold `filesys_lock`
during a transfer; locks are not part of this state.
Source `userprog/syscall.c:46–67,200–311`, `filesys/file.c:68–103`,
`filesys/inode.c:200–318`.
-/

namespace Pintos.Userprog

open Pintos.Base Pintos.Threads Pintos.Vm Pintos.Filesys

def STDIN_FILENO : Int := 0
def STDOUT_FILENO : Int := 1

/-- `is_valid_addr`, `userprog/syscall.c:46–55`. -/
def isValidAddr (p : Pid) (addr : Addr) (s : VmState) : Option (Bool × VmState) :=
  if addr = 0 ∨ isUserVaddr addr = false then some (false, s)
  else do
    let pd ← s.pagedir p
    if (pagedirGetPage pd addr).isSome then some (true, s) else vmLoadPage p addr false .clock s

/-- Address `j` of a buffer. -/
def bufferAddr (buffer : Addr) (j : Nat) : Addr := buffer + BitVec.ofNat 32 j

/-- `is_all_valid_addr`, `userprog/syscall.c:57–67`. -/
def isAllValidAddr (p : Pid) (addr size : Addr) (s : VmState) : Option (Bool × VmState) :=
  loopAll (fun j => isValidAddr p (bufferAddr addr j)) (List.range' 0 size.toNat) s

/-- One round of the page loop, `userprog/syscall.c:230–235,274–279`: the page is loaded and
pinned, and its entry looked up; a buffer to be written needs writable entries. -/
def loadBufferPage (p : Pid) (needWritable : Bool) (r : Replacement) (page : Addr) (s : VmState) :
    Option (Bool × VmState) := do
  let (ok, s) ← vmLoadPage p page true r s
  some (ok && ((sptLookup s p page).bind s.spte).any (fun e => !needWritable || e.writable), s)

/-- The page loop, `userprog/syscall.c:223–237,268–281`. -/
def loadBuffer (p : Pid) (needWritable : Bool) (buffer size : Addr) (s : VmState) :
    Option (Bool × VmState) :=
  if size = 0 then some (true, s)
  else loopAll (loadBufferPage p needWritable .clock) (pageRange buffer size) s

/-! ## Accesses by the kernel -/

/-- The fault that an access by the kernel raises. -/
def kernelFault (pd : PageDir) (addr : Addr) : Fault where
  addr := addr
  notPresent := (pagedirGetPage pd addr).isNone
  user := false
  esp := 0

/-- An access by the kernel to a user address, retried after each fault until it goes through
or the process is ended. The first fault loads the page; one on a page that is present is due
to its rights and ends the process, so that two rounds suffice. -/
def kernelAccess (p : Pid) (addr : Addr) (write : Bool) :
    (rounds : Nat) → VmState → Option (Bool × VmState)
  | 0, _ => none
  | rounds + 1, s => do
    let pd ← s.pagedir p
    if mmuFaults pd (kernelFault pd addr) write then
      match ← pageFault p (kernelFault pd addr) .clock s with
      | (.resume, s) => kernelAccess p addr write rounds s
      | (.exit, s) => some (false, s)
    else some (true, s)

/-- What a transfer has done so far: the addresses accessed and the bytes fetched, in order. -/
structure Copy where
  vm : VmState
  touched : List Addr
  bytes : List UInt8

/-- Store a byte. The kernel's own addresses are always mapped; what is stored there is not
part of the state. -/
def storeByte (p : Pid) (addr : Addr) (byte : UInt8) (c : Copy) : Option (Bool × Copy) :=
  if isUserVaddr addr then do
    let (ok, vm) ← kernelAccess p addr true 2 c.vm
    if ok then
      let vm ← mmuStore p addr byte vm
      some (true, { c with vm, touched := c.touched ++ [addr] })
    else some (false, { c with vm })
  else some (true, { c with touched := c.touched ++ [addr] })

/-- Fetch a byte; one of the kernel's own is taken to be 0. -/
def fetchByte (p : Pid) (addr : Addr) (c : Copy) : Option (Bool × Copy) :=
  if isUserVaddr addr then do
    let (ok, vm) ← kernelAccess p addr false 2 c.vm
    if ok then
      let (byte, vm) ← mmuFetch p addr vm
      some (true, { vm, touched := c.touched ++ [addr], bytes := c.bytes ++ [byte] })
    else some (false, { c with vm })
  else some (true, { c with touched := c.touched ++ [addr], bytes := c.bytes ++ [0] })

/-- A chunk of `inode_read_at`: bytes of the inode go to the buffer. -/
def readChunk (p : Pid) (inode : InodeNo) (buffer : Addr) (offset done cnt : Nat) (c : Copy) :
    Option (Bool × Copy) :=
  loopAll (fun j c => storeByte p (bufferAddr buffer j) ((c.vm.inode inode).data (offset + (j - done))) c)
    (List.range' done cnt) c

/-- A chunk of `inode_write_at`: bytes of the buffer go to the inode. -/
def writeChunk (p : Pid) (inode : InodeNo) (buffer : Addr) (offset done cnt : Nat) (c : Copy) :
    Option (Bool × Copy) := do
  let (ok, c) ← loopAll (fun j => fetchByte p (bufferAddr buffer j)) (List.range' done cnt) c
  if ok then
    let data := fun k =>
      if offset ≤ k ∧ k < offset + cnt then c.bytes.getD (done + (k - offset)) 0
      else (c.vm.inode inode).data k
    some (true, { c with vm := setInode c.vm inode { c.vm.inode inode with data } })
  else some (false, c)

/-- The size of a transfer as an `off_t`; a negative one moves nothing. -/
def offT (size : Addr) : Nat := if size.toNat < 2 ^ 31 then size.toNat else 0

/-- Move `file->pos` past the bytes moved. -/
def advance (f : FileAddr) (moved : Option Nat × Copy) : Option (Option Nat × Copy) :=
  match moved with
  | (none, c) => some (none, c)
  | (some n, c) => (c.vm.file f).map fun file =>
    (some n, { c with vm := setFile c.vm f { file with pos := file.pos + n } })

/-- `file_read` into a user buffer, `filesys/file.c:68–74`. -/
def fileReadUser (p : Pid) (f : FileAddr) (buffer size : Addr) (s : VmState) :
    Option (Option Nat × Copy) := do
  let file ← s.file f
  let moved ← transferLoop (s.inode file.inode).length s.takeHeap.1.isSome
    (readChunk p file.inode buffer) (offT size) (offT size) file.pos 0 ⟨s.takeHeap.2, [], []⟩
  advance f moved

/-- `file_write` from a user buffer, `filesys/file.c:96–102`. -/
def fileWriteUser (p : Pid) (f : FileAddr) (buffer size : Addr) (s : VmState) :
    Option (Option Nat × Copy) := do
  let file ← s.file f
  if (s.inode file.inode).denyWriteCnt ≠ 0 then advance f (some 0, ⟨s, [], []⟩)
  else
    let moved ← transferLoop (s.inode file.inode).length s.takeHeap.1.isSome
      (writeChunk p file.inode buffer) (offT size) (offT size) file.pos 0 ⟨s.takeHeap.2, [], []⟩
    advance f moved

/-! ## The calls -/

/-- What a call ends with: a value for the process, or `process_exit (-1)`. -/
inductive SyscallResult where
  | ret (eax : Int)
  | exit
  deriving DecidableEq, Repr

/-- The end of a call: its result, the buffer addresses that the transfer accessed, what was
printed, and the state, before the process is torn down if it has to end. -/
structure Outcome where
  result : SyscallResult
  touched : List Addr
  output : List UInt8
  vm : VmState

/-- `syscall_exit (-1)` before anything was moved. -/
def Outcome.exit (s : VmState) : Outcome := ⟨.exit, [], [], s⟩

/-- The handle of a descriptor, `userprog/syscall.c:244,291`. -/
def fdFile (s : VmState) (p : Pid) (fd : Int) : Option FileAddr :=
  if 0 ≤ fd ∧ fd < MAX_FD_COUNT then s.fdTable p fd.toNat else none

/-- The end of a transfer: the buffer is unpinned, unless the process has been ended on the way. -/
def finishTransfer (p : Pid) (buffer size : Addr) (moved : Option Nat × Copy) : Outcome :=
  match moved with
  | (none, c) => ⟨.exit, c.touched, [], c.vm⟩
  | (some n, c) => ⟨.ret n, c.touched, [], vmUnpinRange p buffer size c.vm⟩

/-- Reading from standard input, `userprog/syscall.c:206–221`. `input_getc` waits for a key, so
that it always has a byte. -/
def readStdin (p : Pid) (buffer size : Addr) (input : Nat → UInt8) (s : VmState) :
    Option Outcome := do
  let (ok, c) ← loopAll (fun j c => do
    let (ok, vm) ← isValidAddr p (bufferAddr buffer j) c.vm
    if ok then storeByte p (bufferAddr buffer j) (input j) { c with vm }
    else some (false, { c with vm })) (List.range' 0 size.toNat) ⟨s, [], []⟩
  some ⟨if ok then .ret size.toInt else .exit, c.touched, [], c.vm⟩

/-- `syscall_read`, `userprog/syscall.c:200–260`. -/
def syscallRead (p : Pid) (fd : Int) (buffer size : Addr) (input : Nat → UInt8) (s : VmState) :
    Option Outcome := do
  let (ok, s) ← isValidAddr p buffer s
  if !ok then some (.exit s)
  else if fd = STDIN_FILENO then readStdin p buffer size input s
  else do
    let (ok, s) ← loadBuffer p true buffer size s
    if !ok then some (.exit s)
    else
      match fdFile s p fd with
      | none => some ⟨.ret (-1), [], [], s⟩
      | some f => (fileReadUser p f buffer size s).map (finishTransfer p buffer size)

/-- `putbuf` of the whole buffer. The buffer stays pinned, `userprog/syscall.c:283–287`. -/
def writeStdout (p : Pid) (buffer size : Addr) (s : VmState) : Option Outcome := do
  let (ok, c) ← loopAll (fun j => fetchByte p (bufferAddr buffer j)) (List.range' 0 size.toNat)
    ⟨s, [], []⟩
  some ⟨if ok then .ret size.toInt else .exit, c.touched, c.bytes, c.vm⟩

/-- `syscall_write`, `userprog/syscall.c:262–311`. -/
def syscallWrite (p : Pid) (fd : Int) (buffer size : Addr) (s : VmState) : Option Outcome := do
  let (ok, s) ← isAllValidAddr p buffer size s
  if !ok then some (.exit s)
  else do
    let (ok, s) ← loadBuffer p false buffer size s
    if !ok then some (.exit s)
    else if fd = STDOUT_FILENO then writeStdout p buffer size s
    else
      match fdFile s p fd with
      | none => some ⟨.ret (-1), [], [], s⟩
      | some f => (fileWriteUser p f buffer size s).map (finishTransfer p buffer size)

end Pintos.Userprog

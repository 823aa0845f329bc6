import Pintos.Vm.Page

/-!
# The page fault handler

`page_fault` from the moment the fault's cause is known. A user fault that cannot be served
kills the process; the same in kernel mode is a panic, except where the code calls
`process_exit` itself. Source `userprog/exception.c:119–304`.
-/

namespace Pintos.Userprog

open Pintos.Threads Pintos.Vm Pintos.Filesys

/-- What a handled fault leads to: the access is retried, or the process exits with -1. -/
inductive FaultResult where
  | resume
  | exit
  deriving DecidableEq, Repr

/-- What is known about a fault: its address, whether the page was absent, whether it came
from user mode, and the stack pointer the interrupt frame holds. -/
structure Fault where
  addr : Addr
  notPresent : Bool
  user : Bool
  esp : Addr

/-- `kill`: the process exits, or the kernel panics, by the mode of the fault,
`userprog/exception.c:79–117`. -/
def kill (flt : Fault) (s : VmState) : Option (FaultResult × VmState) :=
  if flt.user then some (.exit, s) else none

/-- Fill the frame's page, freeing the slot of a swapped page,
`userprog/exception.c:274–292`. -/
def faultReadPage (i : SpteAddr) (e : SptEntry) (k : KPage) (s : VmState) :
    Option (Bool × VmState) :=
  match e.type with
  | .zero => some (true, s)
  | .file => do
    let f ← e.file
    let s ← fileSeek f e.fileOffset s
    let (n, bytes, s) ← fileRead f e.readBytes s
    some (n == e.readBytes, s.setMem k (copyBytes n bytes (s.mem k)))
  | .swap => do
    let page ← swapRead e.swapSlot s
    let s ← swapFree e.swapSlot (s.setMem k page)
    some (true, s.setSpte i { e with swapSlot := 0 })

/-- The `handle_page_load` part for an entry, `userprog/exception.c:265–304`. Whether the
entry is already resident is not asked. -/
def handlePageLoad (p : Pid) (i : SpteAddr) (r : Replacement) (s : VmState) :
    Option (Bool × VmState) := do
  let (f, s) ← frameAlloc r s
  let fr ← s.frame f
  let e ← s.spte i
  let (ok, s) ← faultReadPage i e fr.kpage s
  if ok then attachFrame p i f s else (frameFree f s).map (false, ·)

/-- The stack access test, on the faulting address itself, `userprog/exception.c:174,232`. -/
def isStackAccess (flt : Fault) (userEsp : Addr) : Bool :=
  userEsp != 0 && !decide (flt.addr < userEsp - 32#32)

/-- The entry a user fault loads, found or added, `userprog/exception.c:224–263`. -/
def faultFindSpte (p : Pid) (flt : Fault) (userEsp : Addr) (s : VmState) :
    Option SpteAddr × VmState :=
  let upage := pgRoundDown flt.addr
  match sptLookup s p upage with
  | some i => (some i, s)
  | none =>
    if isStackPage upage && isStackAccess flt userEsp then growStack p upage s else (none, s)

/-- `page_fault` in process `p`, `userprog/exception.c:119–304`. In kernel mode a missing
entry and a protection fault end the process, and an address of the kernel's own panics. -/
def pageFault (p : Pid) (flt : Fault) (r : Replacement) (s : VmState) :
    Option (FaultResult × VmState) :=
  if !flt.user && !isUserVaddr flt.addr then none
  else
    match faultFindSpte p flt (if flt.user then flt.esp else s.userEsp p) s with
    | (none, s') => some (.exit, s')
    | (some i, s') =>
      if !flt.user && (sptLookup s p flt.addr).isSome && !flt.notPresent then some (.exit, s')
      else
        match handlePageLoad p i r s' with
        | none => none
        | some (true, s') => some (.resume, s')
        | some (false, s') => kill flt s'

end Pintos.Userprog

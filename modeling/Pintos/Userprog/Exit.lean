import Pintos.Vm.Mmap

/-!
# Releasing a process's memory

What `process_exit` and `thread_exit` release: mappings, files, the supplemental page table
and the page directory. Source `userprog/process.c:242–317`,
`vm/page.c:45–58`, `userprog/pagedir.c:26–49`.
-/

namespace Pintos.Userprog

open Pintos.Base Pintos.Threads Pintos.Vm Pintos.Filesys

/-- Unmap and free the frame of an entry that has one, `vm/page.c:49–53`. -/
def freeFrameOf (p : Pid) (e : SptEntry) (s : VmState) : Option VmState :=
  match e.frame with
  | none => some s
  | some f => do
    let pd ← s.pagedir p
    frameFree f (s.setPagedir p (pagedirClearPage pd e.upage))

/-- `spt_destroy_func` on an entry of the exiting process `p`, `vm/page.c:45–58`. -/
def sptDestroyFunc (p : Pid) (i : SpteAddr) (s : VmState) : Option VmState := do
  let e ← s.spte i
  let s ← freeFrameOf p e s
  let s ← freeSlotOf e s
  some (s.freeSpte i)

/-- `hash_destroy` takes the entries out one by one and destroys each,
`userprog/process.c:314`. -/
def hashDestroy (p : Pid) (s : VmState) : Option VmState :=
  run (fun s i => sptDestroyFunc p i
    { s with spt := Function.update s.spt p ((s.spt p).erase i) }) s (s.spt p)

/-- The address of entry `t` of page table `d`. -/
def pageAddr (d t : Nat) : Addr := BitVec.ofNat 32 (d * 2 ^ 22 + t * 2 ^ 12)

/-- The pages `pagedir_destroy` frees: those of the present entries below `PHYS_BASE`,
`userprog/pagedir.c:37–45`. -/
def presentPages (pd : PageDir) : List KPage :=
  (List.range (pdNo PHYS_BASE).toNat).flatMap fun d =>
    if pd.table (BitVec.ofNat 32 d) then
      (List.range 1024).filterMap fun t =>
        let pte := pd.pte (pageAddr d t)
        if pte.present then some pte.kpage else none
    else []

/-- `pagedir_destroy`, as far as it frees user pages, `userprog/pagedir.c:26–49`. -/
def pagedirDestroy (pd : PageDir) (s : VmState) : Option VmState :=
  run pallocFreeUserPage s (presentPages pd)

/-- `free_pagedir`, which `thread_exit` calls, `userprog/process.c:243–265`. -/
def freePagedir (p : Pid) (s : VmState) : Option VmState :=
  match s.pagedir p with
  | none => some s
  | some pd => pagedirDestroy pd { s with pagedir := Function.update s.pagedir p none }

/-- Close the executable, `userprog/process.c:288–293`. -/
def closeExecutable (p : Pid) (s : VmState) : Option VmState :=
  match s.executable p with
  | none => some s
  | some f => (fileAllowWrite f s).bind (fileClose f)

/-- One round of the descriptor loop, `userprog/process.c:295–299`. -/
def closeFd (p : Pid) (s : VmState) (fd : Nat) : Option VmState :=
  match s.fdTable p fd with
  | none => some s
  | some f =>
    if s.executable p = some f then some s
    else (fileClose f s).map fun s =>
      { s with fdTable := Function.update s.fdTable p (Function.update (s.fdTable p) fd none) }

/-- `process_exit` on the shared state, before `thread_exit`, `userprog/process.c:287–314`. -/
def processExit (p : Pid) (s : VmState) : Option VmState := do
  let s ← munmapAll p (s.mmapList p).length s
  let s ← closeExecutable p s
  let s ← run (closeFd p) s (List.range' 2 (MAX_FD_COUNT - 2))
  hashDestroy p s

/-- The end of a process: `process_exit`, then `free_pagedir` in `thread_exit`. -/
def exitProcess (p : Pid) (s : VmState) : Option VmState :=
  (processExit p s).bind (freePagedir p)

end Pintos.Userprog

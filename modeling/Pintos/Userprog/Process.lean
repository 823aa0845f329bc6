import Pintos.Base.Run

/-!
# Processes, their parents and their records

`process_execute` and `process_wait` of a parent, `start_process` and `process_exit` of its
child, step by step: every semaphore operation, lock operation and field update of the
child's `struct process` is one step, and the two threads interleave in any order. A third
thread stands for everything else that uses `filesys_lock`.
Source `userprog/process.c:31–317`, `threads/synch.c:206–338`.
-/

namespace Pintos.Userprog

/-- The threads of the protocol. -/
inductive Thread
  | parent
  | child
  | other
  deriving DecidableEq, Repr

/-- What a lock operation does to its caller. -/
inductive Locking
  | blocked
  | asserts
  | proceeds (holder : Option Thread)
  deriving DecidableEq, Repr

/-- `lock_acquire` waits while another thread holds the lock, and asserts that the caller does
not hold it, `threads/synch.c:219`. -/
def lockAcquire (me : Thread) : Option Thread → Locking
  | none => .proceeds (some me)
  | some holder => if holder = me then .asserts else .blocked

/-- `lock_release` asserts that the caller holds the lock, `threads/synch.c:313`. -/
def lockRelease (me : Thread) (holder : Option Thread) : Locking :=
  if holder = some me then .proceeds none else .asserts

/-- The fields of a child's `struct process` that its parent and it share, `process.h:20–41`. -/
structure ProcessRecord where
  pid : Thread
  exitStatus : Int
  waited : Bool
  exited : Bool
  loaded : Bool
  waitSema : Nat
  lock : Option Thread
  refCount : Int
  deriving DecidableEq, Repr

/-- `init_process`, run by the parent, `userprog/process.c:42–62`. -/
def ProcessRecord.initProcess : ProcessRecord where
  pid := .parent
  exitStatus := -1
  waited := false
  exited := false
  loaded := false
  waitSema := 0
  lock := none
  refCount := 1

/-- A piece of memory that is allocated at most once, and how often it was freed. -/
structure Allocation where
  allocated : Bool
  freed : Nat
  deriving DecidableEq, Repr

/-- Memory nobody has asked for yet. -/
def Allocation.absent : Allocation := ⟨false, 0⟩

/-- Memory just handed out. -/
def Allocation.fresh : Allocation := ⟨true, 0⟩

/-- Allocated, and not freed yet. -/
def Allocation.live (a : Allocation) : Bool := a.allocated && a.freed == 0

/-- Give the memory back. -/
def Allocation.free (a : Allocation) : Allocation := { a with freed := a.freed + 1 }

/-- The steps of `process_refcount_free`, `userprog/process.c:65–79`. -/
inductive FreePc
  | lock
  | decrement
  | test
  | unlock (zero : Bool)
  | free
  deriving DecidableEq, Repr

/-- The places from which a parent drops its reference. -/
inductive FreeCaller
  | create
  | load
  | wait
  deriving DecidableEq, Repr

/-- The `return TID_ERROR` statements of `process_execute`. -/
inductive ErrorSite
  | argv
  | cmdLine
  | args
  | malloc
  | create
  | load
  deriving DecidableEq, Repr

/-- Where the parent is in `process_execute` and, once that returned, in its calls of
`process_wait` for the child. `again` tells whether an earlier call has returned. -/
inductive ParentPc
  | allocArgv
  | allocCmdLine
  | tokenize
  | malloc
  | create
  | setPid
  | lockPush
  | push
  | unlockPush
  | downLoad
  | testLoaded
  | lockDrop
  | drop
  | unlockDrop
  | free (caller : FreeCaller) (pc : FreePc)
  | tidError (site : ErrorSite)
  | returned (again : Bool)
  | lockFind (again : Bool)
  | find (again : Bool)
  | unlockFind (again found : Bool)
  | lockWaited
  | testWaited
  | unlockAgain
  | setWaited
  | unlockWaited
  | downExit
  | lockStatus
  | readStatus
  | unlockStatus
  | lockRemove
  | remove
  | unlockRemove
  | asserted
  deriving DecidableEq, Repr

/-- Where the child is in `start_process`, its program, or `process_exit`. `held` is the value of
`held_proc` or `held_fs`; `exited` tells whether the thread died in `process_exit`. -/
inductive ChildPc
  | absent
  | incRef
  | load
  | setLoaded (ok : Bool)
  | upLoad (ok : Bool)
  | running
  | tryPrint
  | print (held : Bool)
  | unlockPrint
  | lockFs
  | closeFiles (held : Bool)
  | unlockFs
  | tryPublish
  | setStatus (held : Bool)
  | setExited (held : Bool)
  | unlockPublish
  | upExit
  | destroySpt
  | free (pc : FreePc)
  | dead (exited : Bool)
  | asserted
  deriving DecidableEq, Repr

/-- How `load` ends: it returns, or the kernel faults on a user page inside it while it holds
`filesys_lock`, and the fault ends in `process_exit (-1)`, `userprog/exception.c:166–179`. -/
inductive LoadOutcome
  | returns (ok : Bool)
  | exits
  deriving DecidableEq, Repr

/-- The outcomes the environment decides, and the status the child passes to `process_exit`, which
is -1 if `load` ends there. -/
structure Scenario where
  argvOk : Bool
  cmdLineOk : Bool
  argsFit : Bool
  mallocOk : Bool
  createOk : Bool
  load : LoadOutcome
  status : Int
  deriving DecidableEq, Repr

/-- The state of the protocol. `children` tells whether the child is on its parent's list,
`ownLock` who holds the parent's own `proc->lock`, `exitStatus` is the local variable of
`process_wait`, and `results` are the values its calls returned, first call first. -/
structure ProcState where
  parent : ParentPc
  child : ChildPc
  proc : ProcessRecord
  record : Allocation
  argv : Allocation
  cmdLine : Allocation
  children : Bool
  ownLock : Option Thread
  filesysLock : Option Thread
  exitStatus : Int
  results : List Int
  useAfterFree : Bool
  deriving DecidableEq, Repr

namespace ProcState

/-- The parent is about to call `process_execute`. -/
def init : ProcState where
  parent := .allocArgv
  child := .absent
  proc := .initProcess
  record := .absent
  argv := .absent
  cmdLine := .absent
  children := false
  ownLock := none
  filesysLock := none
  exitStatus := -1
  results := []
  useAfterFree := false

/-- Move the parent. -/
def atParent (s : ProcState) (pc : ParentPc) : ProcState := { s with parent := pc }

/-- Move the child. -/
def atChild (s : ProcState) (pc : ChildPc) : ProcState := { s with child := pc }

/-- An access to the child's record, which must not have been freed. -/
def touch (s : ProcState) : ProcState :=
  { s with useAfterFree := s.useAfterFree || !s.record.live }

/-- Access the child's record and change some of its fields. -/
def modifyProc (s : ProcState) (f : ProcessRecord → ProcessRecord) : ProcState :=
  { s.touch with proc := f s.proc }

/-- Finish a lock operation of the child's `proc->lock`. -/
def procLock (s : ProcState) (l : Locking) (asserted next : ProcState → ProcState) :
    Option ProcState :=
  match l with
  | .blocked => none
  | .asserts => some (asserted s.touch)
  | .proceeds holder => some (next (s.modifyProc fun p => { p with lock := holder }))

/-- Finish a lock operation of the parent's own `proc->lock`. -/
def parentLock (s : ProcState) (l : Locking) (next : ProcState → ProcState) : Option ProcState :=
  match l with
  | .blocked => none
  | .asserts => some (s.atParent .asserted)
  | .proceeds holder => some (next { s with ownLock := holder })

/-- `sema_down` on the child's `wait_sema`, which waits while the value is zero. -/
def semaDown (s : ProcState) : Option ProcState :=
  if s.proc.waitSema = 0 then none
  else some (s.modifyProc fun p => { p with waitSema := p.waitSema - 1 })

/-- `sema_up` on the child's `wait_sema`. -/
def semaUp (s : ProcState) : ProcState :=
  s.modifyProc fun p => { p with waitSema := p.waitSema + 1 }

/-- `free_process`, `userprog/process.c:32–40`. -/
def freeProcess (s : ProcState) : ProcState :=
  { s.touch with
    record := s.record.free
    argv := s.argv.free
    cmdLine := s.cmdLine.free }

/-- One step of `process_refcount_free` by `me`, who then goes on at `goto`, or at `done` when
the function returns. The assertion of line 69 is on the count the decrement leaves. -/
def processRefcountFree (s : ProcState) (me : Thread) (pc : FreePc)
    (goto : FreePc → ProcState → ProcState) (done asserted : ProcState → ProcState) :
    Option ProcState :=
  match pc with
  | .lock => s.procLock (lockAcquire me s.proc.lock) asserted (goto .decrement)
  | .decrement => some (goto .test (s.modifyProc fun p => { p with refCount := p.refCount - 1 }))
  | .test =>
    if s.proc.refCount < 0 then some (asserted s.touch)
    else some (goto (.unlock (s.proc.refCount == 0)) s.touch)
  | .unlock zero =>
    s.procLock (lockRelease me s.proc.lock) asserted (if zero then goto .free else done)
  | .free => some (done s.freeProcess)

/-- What the parent does when its `process_refcount_free` returns. -/
def afterFree : FreeCaller → ProcState → ProcState
  | .create, s => s.atParent (.tidError .create)
  | .load, s => s.atParent (.tidError .load)
  | .wait, s => { s with results := s.results ++ [s.exitStatus] }.atParent (.returned true)

/-- `process_wait` returns -1 before it waits. -/
def waitFails (s : ProcState) : ProcState :=
  { s with results := s.results ++ [-1] }.atParent (.returned true)

/-- A step of the parent, `userprog/process.c:86–153` and `197–240`. -/
def parentStep (sc : Scenario) (s : ProcState) : Option ProcState :=
  match s.parent with
  | .allocArgv =>
    if sc.argvOk then some ({ s with argv := .fresh }.atParent .allocCmdLine)
    else some (s.atParent (.tidError .argv))
  | .allocCmdLine =>
    if sc.cmdLineOk then some ({ s with cmdLine := .fresh }.atParent .tokenize)
    else some ({ s with argv := s.argv.free }.atParent (.tidError .cmdLine))
  | .tokenize =>
    if sc.argsFit then some (s.atParent .malloc)
    else some ({ s with argv := s.argv.free, cmdLine := s.cmdLine.free }.atParent
      (.tidError .args))
  | .malloc =>
    if sc.mallocOk then some ({ s with record := .fresh, proc := .initProcess }.atParent .create)
    else some ({ s with argv := s.argv.free, cmdLine := s.cmdLine.free }.atParent
      (.tidError .malloc))
  | .create =>
    if sc.createOk then some ((s.atChild .incRef).atParent .setPid)
    else some (s.atParent (.free .create .lock))
  | .setPid => some ((s.modifyProc fun p => { p with pid := .child }).atParent .lockPush)
  | .lockPush => s.parentLock (lockAcquire .parent s.ownLock) (·.atParent .push)
  | .push => some ({ s.touch with children := true }.atParent .unlockPush)
  | .unlockPush => s.parentLock (lockRelease .parent s.ownLock) (·.atParent .downLoad)
  | .downLoad => s.semaDown.map (·.atParent .testLoaded)
  | .testLoaded => some (s.touch.atParent (if s.proc.loaded then .returned false else .lockDrop))
  | .lockDrop => s.parentLock (lockAcquire .parent s.ownLock) (·.atParent .drop)
  | .drop => some ({ s.touch with children := false }.atParent .unlockDrop)
  | .unlockDrop => s.parentLock (lockRelease .parent s.ownLock) (·.atParent (.free .load .lock))
  | .free caller pc =>
    s.processRefcountFree .parent pc (fun pc s => s.atParent (.free caller pc)) (afterFree caller)
      (·.atParent .asserted)
  | .tidError _ => none
  | .returned again => some (s.atParent (.lockFind again))
  | .lockFind again => s.parentLock (lockAcquire .parent s.ownLock) (·.atParent (.find again))
  | .find again =>
    if s.children then some (s.touch.atParent (.unlockFind again (s.proc.pid == .child)))
    else some (s.atParent (.unlockFind again false))
  | .unlockFind _ true => s.parentLock (lockRelease .parent s.ownLock) (·.atParent .lockWaited)
  | .unlockFind _ false => s.parentLock (lockRelease .parent s.ownLock) waitFails
  | .lockWaited =>
    s.procLock (lockAcquire .parent s.proc.lock) (·.atParent .asserted) (·.atParent .testWaited)
  | .testWaited =>
    some (s.touch.atParent (if s.proc.waited then .unlockAgain else .setWaited))
  | .unlockAgain =>
    s.procLock (lockRelease .parent s.proc.lock) (·.atParent .asserted) waitFails
  | .setWaited => some ((s.modifyProc fun p => { p with waited := true }).atParent .unlockWaited)
  | .unlockWaited =>
    s.procLock (lockRelease .parent s.proc.lock) (·.atParent .asserted) (·.atParent .downExit)
  | .downExit => s.semaDown.map (·.atParent .lockStatus)
  | .lockStatus =>
    s.procLock (lockAcquire .parent s.proc.lock) (·.atParent .asserted) (·.atParent .readStatus)
  | .readStatus => some ({ s.touch with exitStatus := s.proc.exitStatus }.atParent .unlockStatus)
  | .unlockStatus =>
    s.procLock (lockRelease .parent s.proc.lock) (·.atParent .asserted) (·.atParent .lockRemove)
  | .lockRemove => s.parentLock (lockAcquire .parent s.ownLock) (·.atParent .remove)
  | .remove => some ({ s.touch with children := false }.atParent .unlockRemove)
  | .unlockRemove => s.parentLock (lockRelease .parent s.ownLock) (·.atParent (.free .wait .lock))
  | .asserted => none

/-- `held_proc || lock_try_acquire (&proc->lock)`, `userprog/process.c:273–274` and `304–305`:
go on at `inside`, told whether the lock was held before, or at `skip`. -/
def tryProcLock (s : ProcState) (inside : Bool → ChildPc) (skip : ChildPc) : ProcState :=
  match s.proc.lock with
  | none => (s.modifyProc fun p => { p with lock := some .child }).atChild (inside false)
  | some .child => s.touch.atChild (inside true)
  | some _ => s.touch.atChild skip

/-- A step of the child, `userprog/process.c:157–186` and `267–317`. -/
def childStep (sc : Scenario) (s : ProcState) : Option ProcState :=
  match s.child with
  | .absent => none
  | .incRef =>
    some ((s.modifyProc fun p => { p with refCount := p.refCount + 1 }).atChild .load)
  | .load =>
    match sc.load with
    | .returns ok => some (s.touch.atChild (.setLoaded ok))
    | .exits =>
      match lockAcquire .child s.filesysLock with
      | .proceeds holder => some ({ s.touch with filesysLock := holder }.atChild .tryPrint)
      | _ => none
  | .setLoaded ok => some ((s.modifyProc fun p => { p with loaded := ok }).atChild (.upLoad ok))
  | .upLoad ok => some (s.semaUp.atChild (if ok then .running else .dead false))
  | .running => some (s.atChild .tryPrint)
  | .tryPrint => some (s.tryProcLock .print .lockFs)
  | .print held => some (s.touch.atChild (if held then .lockFs else .unlockPrint))
  | .unlockPrint =>
    s.procLock (lockRelease .child s.proc.lock) (·.atChild .asserted) (·.atChild .lockFs)
  | .lockFs =>
    if s.filesysLock = some .child then some (s.atChild (.closeFiles true))
    else match lockAcquire .child s.filesysLock with
      | .proceeds holder => some ({ s with filesysLock := holder }.atChild (.closeFiles false))
      | _ => none
  | .closeFiles held => some (s.touch.atChild (if held then .tryPublish else .unlockFs))
  | .unlockFs =>
    match lockRelease .child s.filesysLock with
    | .proceeds holder => some ({ s with filesysLock := holder }.atChild .tryPublish)
    | _ => some (s.atChild .asserted)
  | .tryPublish => some (s.tryProcLock .setStatus .upExit)
  | .setStatus held =>
    some ((s.modifyProc fun p => { p with exitStatus := sc.status }).atChild (.setExited held))
  | .setExited held =>
    some ((s.modifyProc fun p => { p with exited := true }).atChild
      (if held then .upExit else .unlockPublish))
  | .unlockPublish =>
    s.procLock (lockRelease .child s.proc.lock) (·.atChild .asserted) (·.atChild .upExit)
  | .upExit => some (s.semaUp.atChild .destroySpt)
  | .destroySpt => some (s.touch.atChild (.free .lock))
  | .free pc =>
    s.processRefcountFree .child pc (fun pc s => s.atChild (.free pc)) (·.atChild (.dead true))
      (·.atChild .asserted)
  | .dead _ => none
  | .asserted => none

/-- A step of a thread that uses `filesys_lock`: it takes the free lock or releases its own. -/
def otherStep (s : ProcState) : Option ProcState :=
  match s.filesysLock with
  | none => some { s with filesysLock := some .other }
  | some .other => some { s with filesysLock := none }
  | some _ => none

/-- The scheduler lets one thread take its next step; a blocked or finished thread has none. -/
def step (sc : Scenario) (s : ProcState) : Thread → Option ProcState
  | .parent => s.parentStep sc
  | .child => s.childStep sc
  | .other => s.otherStep

end ProcState

end Pintos.Userprog

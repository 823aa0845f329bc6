import Mathlib.Data.List.Sort
import Mathlib.Logic.Function.Basic

/-!
# Threads and the scheduler

The kernel's threads with the code each of them still has to run, the run queue and the
functions that move threads between queues, with `thread_mlfqs` false.
Source `threads/thread.c:19–57, 116–155, 288–411, 591–718`,
`threads/thread.h:13–118`, `lib/kernel/list.c:400–459`.
-/

namespace Pintos.Threads

/-- The identifier of a thread. -/
abbrev Tid := Nat

/-- A lock, named by its address. -/
abbrev LockId := Nat

/-- A condition variable. -/
abbrev CondId := Nat

def PRI_MIN : Int := 0
def PRI_DEFAULT : Int := 31
def PRI_MAX : Int := 63
def TIME_SLICE : Nat := 4
def MAX_DONATION_DEPTH : Nat := 8

/-- A semaphore: one of its own, that of a lock, or that of a waiter of a condition variable. -/
inductive SemaId
  | sema (n : Nat)
  | lock (l : LockId)
  | cond (waiter : Nat)
  deriving DecidableEq, Repr

/-- `enum thread_status`, `threads/thread.h:13–19`; `dead` is the status of a tid that no thread
has. -/
inductive Status
  | running
  | ready
  | blocked
  | dying
  | dead
  deriving DecidableEq, Repr

/-- The pieces of kernel code that a thread runs without giving up the processor. A thread that
blocks in one of them has still to run what follows the call of `thread_block`. -/
inductive Action
  | semaDown (k : SemaId)
  | semaRetest (k : SemaId)
  | semaTryDown (k : SemaId)
  | semaUp (k : SemaId)
  | semaYield
  | lockAcquire (l : LockId)
  | lockRetest (l : LockId)
  | lockTryAcquire (l : LockId)
  | tryHolder (l : LockId)
  | tryInsert (l : LockId)
  | lockRelease (l : LockId)
  | releaseDonated (l : LockId)
  | releaseHolder (l : LockId)
  | releaseSema (l : LockId)
  | releasePriority
  | setPriority (n : Int)
  | recheck (old : Int)
  | takeTid (priority : Int)
  | startThread (t : Tid)
  | yieldIfHigher (t : Tid)
  | kernelThread (creator : Tid)
  | condWait (c : CondId) (l : LockId)
  | condSignal (c : CondId) (l : LockId)
  | sleep (n : Int)
  | slept
  | block
  | unblocked
  | unblock (t : Tid)
  | yield
  | exit
  | idle
  deriving DecidableEq, Repr

/-- `struct thread`, `threads/thread.h:86–118`, and the code the thread has still to run of the
operation it is in. -/
structure Thread where
  status : Status
  priority : Int
  basePriority : Int
  donatedPriority : Int
  waitingLock : Option LockId
  locks : List LockId
  wakeupTick : Int
  todo : List Action
  deriving DecidableEq, Repr

/-- `struct semaphore`, whose value is an `unsigned`, with the number of completed ups and
downs. -/
structure Semaphore where
  value : Nat
  waiters : List Tid
  ups : Nat
  downs : Nat
  deriving DecidableEq, Repr

/-- `struct lock`; its semaphore is the one named after it. `owners` are the threads between a
completed acquire and the matching release. -/
structure Lock where
  holder : Option Tid
  maxPriority : Int
  owners : List Tid
  deriving DecidableEq, Repr

/-- The state of the thread system. `failed` is set when an assertion about the status of a
thread fails. -/
structure Kernel where
  thread : Tid → Thread
  current : Tid
  idleThread : Tid
  readyList : List Tid
  sleepingList : List Tid
  sema : SemaId → Semaphore
  lock : LockId → Lock
  cond : CondId → List (Nat × Int)
  ticks : Int
  threadTicks : Nat
  nextTid : Tid
  nextWaiter : Nat
  failed : Bool

/-- `init_thread`, `threads/thread.c:594–621`, of a thread with code still to run. -/
def initThread (status : Status) (priority : Int) (todo : List Action) : Thread where
  status := status
  priority := priority
  basePriority := priority
  donatedPriority := PRI_MIN
  waitingLock := none
  locks := []
  wakeupTick := 0
  todo := todo

namespace Kernel

/-- The running thread. -/
def cur (s : Kernel) : Thread := s.thread s.current

/-- Change a thread. -/
def modify (s : Kernel) (t : Tid) (f : Thread → Thread) : Kernel :=
  { s with thread := Function.update s.thread t (f (s.thread t)) }

/-- Let the running thread run `actions` before the code it has still to run. -/
def push (s : Kernel) (actions : List Action) : Kernel :=
  s.modify s.current fun th => { th with todo := actions ++ th.todo }

/-- Change a semaphore. -/
def modifySema (s : Kernel) (k : SemaId) (f : Semaphore → Semaphore) : Kernel :=
  { s with sema := Function.update s.sema k (f (s.sema k)) }

/-- Change a lock. -/
def modifyLock (s : Kernel) (l : LockId) (f : Lock → Lock) : Kernel :=
  { s with lock := Function.update s.lock l (f (s.lock l)) }

/-- A change of one thread that keeps something about it keeps it about all threads. -/
theorem field_modify {s : Kernel} {β : Type} (g : Thread → β) {t : Tid} {f : Thread → Thread}
    (hg : g (f (s.thread t)) = g (s.thread t)) (u : Tid) :
    g ((s.modify t f).thread u) = g (s.thread u) := by
  by_cases hu : u = t
  · subst hu
    simpa [modify] using hg
  · simp [modify, hu]

@[inherit_doc field_modify]
theorem field_modifyLock {s : Kernel} {β : Type} (g : Lock → β) {l : LockId} {f : Lock → Lock}
    (hg : g (f (s.lock l)) = g (s.lock l)) (j : LockId) :
    g ((s.modifyLock l f).lock j) = g (s.lock j) := by
  by_cases hj : j = l
  · subst hj
    simpa [modifyLock] using hg
  · simp [modifyLock, hj]

/-- `thread_priority_greater`, `threads/thread.c:117–124`. -/
def Greater (s : Kernel) (a b : Tid) : Prop := (s.thread b).priority < (s.thread a).priority

instance (s : Kernel) : DecidableRel s.Greater := fun _ _ => Int.decLt _ _

/-- The order in which `list_sort` leaves threads: those of greater priority come first, those of
equal priority keep their order. -/
def AtLeast (s : Kernel) (a b : Tid) : Prop := (s.thread b).priority ≤ (s.thread a).priority

instance (s : Kernel) : DecidableRel s.AtLeast := fun _ _ => Int.decLe _ _

/-- `list_insert_ordered` by priority, `lib/kernel/list.c:445–459`. -/
def insertOrdered (s : Kernel) (t : Tid) (ts : List Tid) : List Tid :=
  ts.orderedInsert s.Greater t

/-- `list_sort` by priority, a stable sort, `lib/kernel/list.c:400–443`. -/
def sorted (s : Kernel) (ts : List Tid) : List Tid := ts.insertionSort s.AtLeast

/-- Switch to a thread, `threads/thread.c:662–711`. -/
def switchTo (s : Kernel) (next : Tid) : Kernel :=
  { s.modify next fun th => { th with status := .running } with
    current := next
    threadTicks := 0
    failed := s.failed || (s.cur.status == .running || (s.thread next).status == .dead) }

/-- `schedule` with `next_thread_to_run`, `threads/thread.c:641–711`. -/
def schedule (s : Kernel) : Kernel :=
  match s.sorted s.readyList with
  | [] => s.switchTo s.idleThread
  | next :: rest => { s with readyList := rest }.switchTo next

/-- `thread_block`, `threads/thread.c:304–312`; the thread goes on with `again`. -/
def threadBlock (s : Kernel) (again : Action) : Kernel :=
  ((s.push [again]).modify s.current fun th => { th with status := .blocked }).schedule

/-- `thread_unblock`, `threads/thread.c:322–339`, without the request to yield. -/
def threadUnblock (s : Kernel) (t : Tid) : Kernel :=
  { s.modify t fun th => { th with status := .ready } with
    readyList := s.insertOrdered t s.readyList
    failed := s.failed || (s.thread t).status != .blocked }

/-- `thread_yield`, `threads/thread.c:395–411`. -/
def threadYield (s : Kernel) : Kernel :=
  { s.modify s.current fun th => { th with status := .ready } with
    readyList :=
      if s.current = s.idleThread then s.readyList
      else s.insertOrdered s.current s.readyList }.schedule

/-- `thread_exit`, `threads/thread.c:371–391`, to the end of the switch, where the thread is
destroyed. -/
def threadExit (s : Kernel) : Kernel :=
  (s.modify s.current fun th => { th with status := .dying }).schedule.modify s.current
    fun th => { th with status := .dead }

/-- The second half of `thread_set_priority`, `threads/thread.c:446–454`. -/
def recheck (s : Kernel) (old : Int) : Kernel :=
  if s.cur.priority < old then
    match s.readyList with
    | [] => s
    | front :: _ => if s.cur.priority < (s.thread front).priority then s.threadYield else s
  else s

/-- The priority that `thread_set_priority` computes, `threads/thread.c:440–443`. -/
def newPriority (th : Thread) (n : Int) : Int :=
  if th.priority < n then n
  else if n < th.priority then max n th.donatedPriority
  else th.priority

/-- `thread_set_priority`, `threads/thread.c:431–456`. -/
def threadSetPriority (s : Kernel) (n : Int) : Kernel :=
  let old := s.cur.priority
  let s := s.modify s.current fun th =>
    { th with basePriority := n, priority := newPriority th n }
  if old < s.cur.priority then
    (s.push [.recheck old]).threadYield
  else s.recheck old

end Kernel

end Pintos.Threads

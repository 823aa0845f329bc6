import Mathlib.Algebra.Group.Nat.Defs
import Mathlib.Algebra.Ring.Int.Defs
import Pintos.Base.Run
import Pintos.Threads.Thread

/-!
# The multi-level feedback queue scheduler

`thread_tick` with `thread_mlfqs` true, and the operations that change the numbers it works with:
priorities from `recent_cpu` and `nice`, and `recent_cpu` from the load average, in 17.14
fixed-point arithmetic on 32-bit words. Donation is off, so that priorities change here only.
Source `threads/thread.c:84–124, 174–210, 236–287, 304–411, 490–501, 591–718`,
`threads/fixedpoint.h:6–18`, `devices/timer.c:178–182`.
-/

namespace Pintos.Threads.Mlfqs

open Pintos.Base

/-! ## Fixed-point numbers -/

/-- One in 17.14 fixed point, `threads/fixedpoint.h:6`. -/
def F : Int := 2 ^ 14

/-- What an `int32_t` keeps of a value. -/
def int32 (x : Int) : Int := x.bmod (2 ^ 32)

/-- `INT_TO_FP`. -/
def intToFp (n : Int) : Int := int32 (n * F)

/-- `FP_TO_INT_NEAREST`. -/
def fpToIntNearest (x : Int) : Int :=
  if 0 ≤ x then (int32 (x + F / 2)).tdiv F else (int32 (x - F / 2)).tdiv F

/-- `ADD_FP_INT`. -/
def addFpInt (x n : Int) : Int := int32 (x + n * F)

/-- `MUL_FP`, a 64-bit value. -/
def mulFp (x y : Int) : Int := (x * y).tdiv F

/-- `DIV_FP`, a 64-bit value. -/
def divFp (x y : Int) : Int := (x * F).tdiv y

/-! ## State -/

/-- Timer interrupts per second, `devices/timer.h`. -/
def TIMER_FREQ : Nat := 100

/-- The fields of `struct thread` that the scheduler works with, `threads/thread.h:86–98`. -/
structure Thread where
  status : Status
  priority : Int
  nice : Int
  recentCpu : Int
  deriving DecidableEq, Repr

/-- The scheduler's variables, `threads/thread.c:26–65`. -/
structure State where
  thread : Tid → Thread
  allList : List Tid
  readyList : List Tid
  current : Tid
  idleThread : Tid
  loadAvg : Int
  ticks : Int
  threadTicks : Nat
  nextTid : Tid

namespace State

/-- Change a thread. -/
def modify (s : State) (t : Tid) (f : Thread → Thread) : State :=
  { s with thread := Function.update s.thread t (f (s.thread t)) }

/-- The running thread. -/
def cur (s : State) : Thread := s.thread s.current

/-- `list_insert_ordered` by priority. -/
def insertOrdered (s : State) (t : Tid) (ts : List Tid) : List Tid :=
  ts.orderedInsert (fun a b => (s.thread b).priority < (s.thread a).priority) t

/-- `list_sort` of the run queue by priority. -/
def sortReady (s : State) : State :=
  { s with
    readyList :=
      s.readyList.insertionSort fun a b => (s.thread b).priority ≤ (s.thread a).priority }

/-- `thread_foreach`, `threads/thread.c:415–428`. -/
def threadForeach (s : State) (func : Tid → Thread → Thread) : State :=
  { s with thread := s.allList.foldl (fun th t => Function.update th t (func t (th t))) s.thread }

end State

/-! ## The three updates -/

/-- The priority that `update_thread_priority` stores, `threads/thread.c:110–114`. -/
def newPriority (recentCpu nice : Int) : Int :=
  let priority := fpToIntNearest
    (int32 (int32 (intToFp PRI_MAX - recentCpu.tdiv 4) - int32 (intToFp nice * 2)))
  let priority := if priority > PRI_MAX then PRI_MAX else priority
  if priority < PRI_MIN then PRI_MIN else priority

/-- `update_thread_priority`, `threads/thread.c:105–115`. -/
def updateThreadPriority (idleThread t : Tid) (th : Thread) : Thread :=
  if t = idleThread then th else { th with priority := newPriority th.recentCpu th.nice }

/-- `update_load_avg`, `threads/thread.c:84–91`. -/
def updateLoadAvg (s : State) : State :=
  let readyThreads : Int :=
    if s.current ≠ s.idleThread then s.readyList.length + 1 else s.readyList.length
  { s with
    loadAvg := int32 (divFp (int32 (s.loadAvg * 59)) (intToFp 60) +
      (intToFp readyThreads).tdiv 60) }

/-- `update_recent_cpu`, `threads/thread.c:94–101`. -/
def updateRecentCpu (loadAvg : Int) (idleThread t : Tid) (th : Thread) : Thread :=
  if t = idleThread then th
  else
    let coeff := int32 (divFp (int32 (loadAvg * 2)) (int32 (int32 (loadAvg * 2) + intToFp 1)))
    { th with recentCpu := int32 (mulFp coeff th.recentCpu + intToFp th.nice) }

/-- The running thread is charged for the tick, `threads/thread.c:182–183`. -/
def charge (s : State) : State :=
  if s.current ≠ s.idleThread then
    s.modify s.current fun th => { th with recentCpu := addFpInt th.recentCpu 1 }
  else s

/-- The updates of every second, `threads/thread.c:190–193`. -/
def everySecond (s : State) : State :=
  if s.ticks % TIMER_FREQ = 0 then
    let s := updateLoadAvg s
    s.threadForeach (updateRecentCpu s.loadAvg s.idleThread)
  else s

/-- The updates of every time slice, `threads/thread.c:186–194`. -/
def everySlice (s : State) : State :=
  if s.ticks % TIME_SLICE = 0 then
    everySecond (s.threadForeach (updateThreadPriority s.idleThread)).sortReady
  else s

/-- `thread_tick`, `threads/thread.c:174–210`, with `thread_mlfqs` true; the request to yield is
taken up by a later step. -/
def threadTick (s : State) : State :=
  let s := everySlice (charge s)
  { s with threadTicks := s.threadTicks + 1 }

/-! ## The scheduler as a state machine -/

/-- `schedule`, `threads/thread.c:641–711`; the run queue is not sorted again. -/
def schedule (s : State) : State :=
  match s.readyList with
  | [] =>
    { s.modify s.idleThread fun th => { th with status := .running } with
      current := s.idleThread, threadTicks := 0 }
  | next :: rest =>
    { s.modify next fun th => { th with status := .running } with
      current := next, readyList := rest, threadTicks := 0 }

/-- `thread_yield`, `threads/thread.c:395–411`. -/
def threadYield (s : State) : State :=
  schedule { s.modify s.current fun th => { th with status := .ready } with
    readyList :=
      if s.current ≠ s.idleThread then s.insertOrdered s.current s.readyList else s.readyList }

/-- `thread_block`, `threads/thread.c:304–312`. -/
def threadBlock (s : State) : State :=
  schedule (s.modify s.current fun th => { th with status := .blocked })

/-- `thread_unblock`, `threads/thread.c:322–339`. -/
def threadUnblock (s : State) (t : Tid) : Option State :=
  if (s.thread t).status = .blocked then
    some { s.modify t fun th => { th with status := .ready } with
      readyList := s.insertOrdered t s.readyList }
  else none

/-- `thread_create` of a thread that is not the idle thread, `threads/thread.c:236–287`. -/
def threadCreate (s : State) : Option State := do
  let t := s.nextTid
  let s ← threadUnblock { s with
    thread := Function.update s.thread t
      { status := .blocked, priority := PRI_DEFAULT, nice := s.cur.nice,
        recentCpu := s.cur.recentCpu }
    allList := s.allList ++ [t]
    nextTid := t + 1 } t
  some (if (s.thread t).priority > s.cur.priority then threadYield s else s)

/-- `thread_exit`, `threads/thread.c:371–391`. -/
def threadExit (s : State) : State :=
  schedule { s.modify s.current fun th => { th with status := .dying } with
    allList := s.allList.erase s.current }

/-- `thread_set_nice`, `threads/thread.c:491–501`. -/
def threadSetNice (s : State) (nice : Int) : State :=
  let oldPriority := s.cur.priority
  let s := (s.modify s.current fun th =>
    updateThreadPriority s.idleThread s.current { th with nice := nice }).sortReady
  if s.cur.priority > oldPriority then threadYield s else s

/-- What happens next: a timer interrupt, or an operation of the running thread. -/
inductive Op
  | tick
  | create
  | exit
  | block
  | unblock (t : Tid)
  | yield
  | setNice (nice : Int)
  deriving DecidableEq, Repr

/-- One step. The idle thread only blocks. -/
def step (s : State) : Op → Option State
  | .tick => some (threadTick { s with ticks := s.ticks + 1 })
  | .create => if s.current = s.idleThread then none else threadCreate s
  | .exit => if s.current = s.idleThread then none else some (threadExit s)
  | .block => some (threadBlock s)
  | .unblock t => threadUnblock s t
  | .yield => some (threadYield s)
  | .setNice n => if s.current = s.idleThread then none else some (threadSetNice s n)

/-- After `thread_start`: the main thread runs, and the idle thread waits to be needed. -/
def threadStart : State where
  thread := fun t =>
    { status := if t = 1 then .running else .blocked
      priority := if t = 1 then PRI_DEFAULT else PRI_MIN, nice := 0, recentCpu := 0 }
  allList := [1, 2]
  readyList := []
  current := 1
  idleThread := 2
  loadAvg := 0
  ticks := 0
  threadTicks := 0
  nextTid := 3

/-! ## The lists of threads -/

/-- Every thread is on `all_list` once. -/
structure Listed (s : State) : Prop where
  nodup : s.allList.Nodup
  fresh : ∀ t ∈ s.allList, t < s.nextTid

/-- A step that leaves `all_list` and `next_tid` alone keeps the list in order. -/
theorem Listed.of_eq {s s' : State} (h : Listed s) (hall : s'.allList = s.allList)
    (hnext : s'.nextTid = s.nextTid) : Listed s' := by
  constructor
  · rw [hall]
    exact h.nodup
  · rw [hall, hnext]
    exact h.fresh

@[simp] theorem allList_schedule (s : State) : (schedule s).allList = s.allList := by
  unfold schedule
  split <;> rfl

@[simp] theorem nextTid_schedule (s : State) : (schedule s).nextTid = s.nextTid := by
  unfold schedule
  split <;> rfl

@[simp] theorem allList_threadYield (s : State) : (threadYield s).allList = s.allList := by
  simp [threadYield, State.modify]

@[simp] theorem nextTid_threadYield (s : State) : (threadYield s).nextTid = s.nextTid := by
  simp [threadYield, State.modify]

private theorem allList_threadUnblock {s s' : State} {t : Tid} (h : threadUnblock s t = some s') :
    s'.allList = s.allList ∧ s'.nextTid = s.nextTid := by
  unfold threadUnblock at h
  split at h
  · cases h
    exact ⟨rfl, rfl⟩
  · cases h

@[simp] theorem allList_charge (s : State) : (charge s).allList = s.allList := by
  unfold charge
  split <;> rfl

@[simp] theorem ticks_charge (s : State) : (charge s).ticks = s.ticks := by
  unfold charge
  split <;> rfl

@[simp] theorem idleThread_charge (s : State) : (charge s).idleThread = s.idleThread := by
  unfold charge
  split <;> rfl

private theorem allList_threadTick (s : State) :
    (threadTick s).allList = s.allList ∧ (threadTick s).nextTid = s.nextTid := by
  unfold threadTick everySlice everySecond charge
  constructor <;> split_ifs <;> rfl

private theorem Listed.step {s s' : State} {o : Op} (h : Listed s) (hs : step s o = some s') :
    Listed s' := by
  cases o with
  | tick =>
    cases hs
    obtain ⟨hall, hnext⟩ := allList_threadTick { s with ticks := s.ticks + 1 }
    exact h.of_eq hall hnext
  | create =>
    simp only [Mlfqs.step] at hs
    split at hs
    · cases hs
    · simp only [threadCreate, Option.bind_eq_bind, Option.bind_eq_some_iff,
        Option.some.injEq] at hs
      obtain ⟨m, hm, hs⟩ := hs
      obtain ⟨hall, hnext⟩ := allList_threadUnblock hm
      have hlisted : Listed m := by
        constructor
        · rw [hall]
          apply List.Nodup.append h.nodup (List.nodup_singleton _)
          intro t ht hmem
          cases List.mem_singleton.mp hmem
          exact Nat.lt_irrefl _ (h.fresh _ ht)
        · rw [hall, hnext]
          intro t ht
          rcases List.mem_append.mp ht with ht | ht
          · exact Nat.lt_succ_of_lt (h.fresh t ht)
          · cases List.mem_singleton.mp ht
            exact Nat.lt_succ_self _
      rw [← hs]
      split
      · exact hlisted.of_eq (allList_threadYield m) (nextTid_threadYield m)
      · exact hlisted
  | exit =>
    simp only [Mlfqs.step] at hs
    split at hs
    · cases hs
    · cases hs
      constructor
      · simpa [threadExit] using h.nodup.erase s.current
      · intro t ht
        simp only [threadExit, allList_schedule] at ht
        simpa [threadExit, State.modify] using h.fresh t (List.mem_of_mem_erase ht)
  | block =>
    cases hs
    exact h.of_eq (by simp [threadBlock, State.modify]) (by simp [threadBlock, State.modify])
  | unblock t =>
    obtain ⟨hall, hnext⟩ := allList_threadUnblock hs
    exact h.of_eq hall hnext
  | yield =>
    cases hs
    exact h.of_eq (allList_threadYield s) (nextTid_threadYield s)
  | setNice n =>
    simp only [Mlfqs.step] at hs
    split at hs
    · cases hs
    · cases hs
      unfold threadSetNice
      dsimp only
      split
      · exact h.of_eq (allList_threadYield _) (nextTid_threadYield _)
      · exact h.of_eq rfl rfl

theorem listed_run {s : State} {os : List Op} (hr : run step threadStart os = some s) :
    Listed s :=
  run_preserves (fun _ _ _ h hs => Listed.step h hs) ⟨by decide, by decide⟩ hr

end Pintos.Threads.Mlfqs

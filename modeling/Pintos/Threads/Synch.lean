import Mathlib.Algebra.Group.Nat.Defs
import Pintos.Base.Run
import Pintos.Threads.Thread

/-!
# Semaphores, locks, condition variables and the timer

What a thread does in each uninterrupted piece of the synchronisation code, and the machine in
which the running thread begins operations, runs the pieces they consist of, and is interrupted
by the timer wherever interrupts are on.
Source `threads/synch.c:56–441`, `threads/thread.c:143–290, 713–724`,
`devices/timer.c:94–105, 178–203`.
-/

namespace Pintos.Threads

/-- `tid_lock`, `threads/thread.c:42`. -/
def tidLock : LockId := 0

/-- The operations that kernel code calls. -/
inductive Op
  | threadCreate (priority : Int)
  | threadBlock
  | threadUnblock (t : Tid)
  | threadYield
  | threadExit
  | threadSetPriority (n : Int)
  | semaDown (n : Nat)
  | semaTryDown (n : Nat)
  | semaUp (n : Nat)
  | lockAcquire (l : LockId)
  | lockTryAcquire (l : LockId)
  | lockRelease (l : LockId)
  | condWait (c : CondId) (l : LockId)
  | condSignal (c : CondId) (l : LockId)
  | timerSleep (n : Int)
  deriving DecidableEq, Repr

/-- The pieces of code an operation begins with. `thread_create` allocates its tid under
`tid_lock`, `threads/thread.c:713–724`. -/
def Op.code : Op → List Action
  | threadCreate priority => [.lockAcquire tidLock, .takeTid priority]
  | threadBlock => [.block]
  | threadUnblock t => [.unblock t]
  | threadYield => [.yield]
  | threadExit => [.exit]
  | threadSetPriority n => [.setPriority n]
  | semaDown n => [.semaDown (.sema n)]
  | semaTryDown n => [.semaTryDown (.sema n)]
  | semaUp n => [.semaUp (.sema n)]
  | lockAcquire l => [.lockAcquire l]
  | lockTryAcquire l => [.lockTryAcquire l]
  | lockRelease l => [.lockRelease l]
  | condWait c l => [.condWait c l]
  | condSignal c l => [.condSignal c l]
  | timerSleep n => [.sleep n]

/-- A priority that a thread may have, `threads/thread.h:28–30`. -/
def PriorityInRange (n : Int) : Prop := PRI_MIN ≤ n ∧ n ≤ PRI_MAX

instance (n : Int) : Decidable (PriorityInRange n) := instDecidableAnd

/-- `init_thread` asserts that a new thread's priority is in range, `threads/thread.c:602`. -/
def Op.InRange : Op → Prop
  | threadCreate n => PriorityInRange n
  | _ => True

instance (o : Op) : Decidable o.InRange := by
  cases o <;> unfold Op.InRange <;> infer_instance

/-- Interrupts are on at the beginning of the piece of code. -/
def Action.interruptible : Action → Bool
  | semaRetest _ | lockRetest _ | slept | unblocked | recheck _ | kernelThread _ => false
  | _ => true

namespace Kernel

/-- `sema_down`, `threads/synch.c:74–90`, from the test of the value. -/
def semaDown (s : Kernel) (k : SemaId) : Kernel :=
  if (s.sema k).value = 0 then
    (s.modifySema k fun m =>
      { m with waiters := s.insertOrdered s.current m.waiters }).threadBlock (.semaRetest k)
  else s.modifySema k fun m => { m with value := m.value - 1, downs := m.downs + 1 }

/-- `sema_try_down`, `threads/synch.c:97–116`. -/
def semaTryDown (s : Kernel) (k : SemaId) : Kernel :=
  if (s.sema k).value = 0 then s
  else s.modifySema k fun m => { m with value := m.value - 1, downs := m.downs + 1 }

/-- The waiter that `sema_up` removes, `threads/synch.c:130–135`. -/
def wakeWaiter (s : Kernel) (k : SemaId) : Kernel :=
  match s.sorted (s.sema k).waiters with
  | [] => s
  | t :: rest => (s.modifySema k fun m => { m with waiters := rest }).threadUnblock t

/-- `sema_up`, `threads/synch.c:122–139`, to the point where the level of interrupts is restored;
what follows is a yield if they are on. -/
def semaUp (s : Kernel) (k : SemaId) : Kernel :=
  (s.wakeWaiter k).modifySema k fun m =>
    { m with value := (m.value + 1) % 2 ^ 32, ups := m.ups + 1 }

/-- Raise the priority that a lock hands to its holder. -/
def raiseLock (s : Kernel) (l : LockId) (p : Int) : Kernel :=
  s.modifyLock l fun lk => { lk with maxPriority := max lk.maxPriority p }

/-- Donate a priority to a thread. -/
def raiseThread (s : Kernel) (h : Tid) (p : Int) : Kernel :=
  s.modify h fun th =>
    { th with priority := max th.priority p, donatedPriority := max th.donatedPriority p }

/-- The loop of nested donation, `threads/synch.c:248–258`, from a thread that has received a
donation. -/
def donateChain (s : Kernel) (t : Tid) : Nat → Kernel
  | 0 => s
  | d + 1 =>
    match (s.thread t).waitingLock with
    | none => s
    | some l =>
      let p := (s.thread t).priority
      match (s.lock l).holder with
      | none => s.raiseLock l p
      | some h => ((s.raiseLock l p).raiseThread h p).donateChain h d

/-- The donation of `lock_acquire`, `threads/synch.c:238–260`. -/
def donate (s : Kernel) (l : LockId) : Kernel :=
  let p := s.cur.priority
  let s := s.modify s.current fun th => { th with waitingLock := some l }
  match (s.lock l).holder with
  | none => s
  | some h => ((s.raiseLock l p).raiseThread h p).donateChain h MAX_DONATION_DEPTH

/-- Nested donation keeps what raising a lock and raising a thread keep. -/
theorem donateChain_induct {P : Kernel → Prop} (hlock : ∀ s l p, P s → P (s.raiseLock l p))
    (hthread : ∀ s t p, P s → P (s.raiseThread t p)) {s : Kernel} (h : P s) (t : Tid) (d : Nat) :
    P (s.donateChain t d) := by
  induction d generalizing s t with
  | zero => exact h
  | succ d ih =>
    rw [donateChain]
    split
    · exact h
    · dsimp only
      split
      · exact hlock s _ _ h
      · exact ih (hthread _ _ _ (hlock s _ _ h)) _

theorem donate_induct {P : Kernel → Prop} {s : Kernel} {l : LockId}
    (hlock : ∀ s l p, P s → P (s.raiseLock l p))
    (hthread : ∀ s t p, P s → P (s.raiseThread t p))
    (h : P (s.modify s.current fun th => { th with waitingLock := some l })) : P (s.donate l) := by
  unfold donate
  dsimp only
  split
  · exact h
  · exact donateChain_induct hlock hthread (hthread _ _ _ (hlock _ _ _ h)) _ _

/-- `list_insert_ordered` by `lock_priority_greater`, `threads/synch.c:41–47`. -/
def insertLock (s : Kernel) (l : LockId) (ls : List LockId) : List LockId :=
  ls.orderedInsert (fun a b => (s.lock b).maxPriority < (s.lock a).maxPriority) l

/-- The greatest priority cached in a list of locks, `PRI_MIN` for none. -/
def frontPriority (s : Kernel) (ls : List LockId) : Int :=
  match ls.insertionSort (fun a b => (s.lock b).maxPriority ≤ (s.lock a).maxPriority) with
  | [] => PRI_MIN
  | l :: _ => (s.lock l).maxPriority

/-- What `lock_acquire` caches for the waiters that remain, `threads/synch.c:265–271`. -/
def waiterPriority (s : Kernel) (l : LockId) : Int :=
  match s.sorted (s.sema (.lock l)).waiters with
  | [] => PRI_MIN
  | t :: _ => (s.thread t).priority

/-- The end of `lock_acquire`, `threads/synch.c:89, 263–275`. -/
def takeLock (s : Kernel) (l : LockId) : Kernel :=
  let s := (s.modifySema (.lock l) fun m =>
    { m with value := m.value - 1, downs := m.downs + 1, waiters := s.sorted m.waiters }).modifyLock
      l fun lk =>
    { lk with
      holder := some s.current
      maxPriority := s.waiterPriority l
      owners := s.current :: lk.owners }
  s.modify s.current fun th =>
    { th with waitingLock := none, locks := s.insertLock l th.locks }

theorem field_takeLock {β : Type} (g : Thread → β) (s : Kernel) (l : LockId)
    (hg : ∀ th ls, g { th with waitingLock := none, locks := ls } = g th) (u : Tid) :
    g ((s.takeLock l).thread u) = g (s.thread u) := by
  unfold takeLock
  exact (field_modify g (hg _ _) u).trans rfl

/-- `lock_acquire` from the test of the semaphore's value. -/
def acquireDown (s : Kernel) (l : LockId) : Kernel :=
  if (s.sema (.lock l)).value = 0 then
    (s.modifySema (.lock l) fun m =>
      { m with waiters := s.insertOrdered s.current m.waiters }).threadBlock (.lockRetest l)
  else s.takeLock l

/-- `lock_acquire`, `threads/synch.c:214–278`; the lock may not be held by the thread. -/
def lockAcquire (s : Kernel) (l : LockId) : Option Kernel :=
  if (s.lock l).holder = some s.current then none else some ((s.donate l).acquireDown l)

/-- `lock_try_acquire`, `threads/synch.c:286–302`, to the end of `sema_try_down`. -/
def lockTryAcquire (s : Kernel) (l : LockId) : Option Kernel :=
  if (s.lock l).holder = some s.current then none
  else if (s.sema (.lock l)).value = 0 then some s
  else some ((s.semaTryDown (.lock l)).push [.tryHolder l])

/-- The assignment to `holder` in `lock_try_acquire`. -/
def tryHolder (s : Kernel) (l : LockId) : Kernel :=
  (s.modifyLock l fun lk => { lk with holder := some s.current }).push [.tryInsert l]

/-- The insertion into `locks` in `lock_try_acquire`. -/
def tryInsert (s : Kernel) (l : LockId) : Kernel :=
  (s.modifyLock l fun lk => { lk with owners := s.current :: lk.owners }).modify s.current
    fun th => { th with locks := s.insertLock l th.locks }

/-- `lock_release`, `threads/synch.c:309–324`: the lock, which the thread must hold, leaves its
list. -/
def lockRelease (s : Kernel) (l : LockId) : Option Kernel :=
  if (s.lock l).holder = some s.current then
    some (((s.modifyLock l fun lk => { lk with owners := lk.owners.erase s.current }).modify
      s.current fun th => { th with locks := th.locks.erase l }).push [.releaseDonated l])
  else none

/-- The donation that is left, `threads/synch.c:325–332`. -/
def releaseDonated (s : Kernel) (l : LockId) : Kernel :=
  (s.modify s.current fun th =>
    { th with donatedPriority := s.frontPriority th.locks }).push [.releaseHolder l]

/-- `lock->holder = NULL`, `threads/synch.c:333`. -/
def releaseHolder (s : Kernel) (l : LockId) : Kernel :=
  (s.modifyLock l fun lk => { lk with holder := none }).push [.releaseSema l]

/-- `sema_up (&lock->semaphore)`, `threads/synch.c:334–337`; the thread then yields and sets its
priority anew. -/
def releaseSema (s : Kernel) (l : LockId) : Kernel :=
  (s.push [.semaYield, .releasePriority]).semaUp (.lock l)

/-- `allocate_tid` inside `tid_lock` and `init_thread`, `threads/thread.c:236–259`. -/
def takeTid (s : Kernel) (priority : Int) : Kernel :=
  let t := s.nextTid
  { s.modify t fun _ => initThread .blocked priority [.kernelThread s.current] with
    nextTid := t + 1 }.push [.lockRelease tidLock, .startThread t]

/-- `thread_unblock` of the new thread, `threads/thread.c:288–289`. -/
def startThread (s : Kernel) (t : Tid) : Kernel :=
  (s.push [.yieldIfHigher t]).threadUnblock t

/-- The preemption of `thread_create`, `threads/thread.c:291–293`. -/
def yieldIfHigher (s : Kernel) (t : Tid) : Kernel :=
  if s.cur.priority < (s.thread t).priority then s.threadYield else s

/-- `cond_wait`, `threads/synch.c:389–406`; the semaphore of the new waiter is unused so far. -/
def condWait (s : Kernel) (c : CondId) (l : LockId) : Option Kernel :=
  if (s.lock l).holder = some s.current then
    some ({ s with
      cond := Function.update s.cond c
        ((s.cond c).orderedInsert (fun a b => b.2 < a.2) (s.nextWaiter, s.cur.priority))
      nextWaiter := s.nextWaiter + 1 }.push
        [.lockRelease l, .semaDown (.cond s.nextWaiter), .lockAcquire l])
  else none

/-- `cond_signal`, `threads/synch.c:425–440`. -/
def condSignal (s : Kernel) (c : CondId) (l : LockId) : Option Kernel :=
  if (s.lock l).holder = some s.current then
    match (s.cond c).insertionSort (fun a b => b.2 ≤ a.2) with
    | [] => some s
    | w :: rest =>
      some (({ s with cond := Function.update s.cond c rest }.push [.semaYield]).semaUp
        (.cond w.1))
  else none

/-- `timer_sleep`, `devices/timer.c:94–105`. -/
def timerSleep (s : Kernel) (n : Int) : Kernel :=
  if n ≤ 0 then s
  else
    let s := s.modify s.current fun th => { th with wakeupTick := s.ticks + n }
    { s with
      sleepingList := s.sleepingList.orderedInsert
        (fun a b => (s.thread a).wakeupTick < (s.thread b).wakeupTick) s.current }.threadBlock .slept

/-- What the running thread does in a piece of code; `none` where the caller breaks an assertion
about the lock or the thread it names. -/
def exec (s : Kernel) : Action → Option Kernel
  | .semaDown k => some (s.semaDown k)
  | .semaRetest k => some (s.semaDown k)
  | .semaTryDown k => some (s.semaTryDown k)
  | .semaUp k => some ((s.push [.semaYield]).semaUp k)
  | .semaYield => some s.threadYield
  | .lockAcquire l => s.lockAcquire l
  | .lockRetest l => some (s.acquireDown l)
  | .lockTryAcquire l => s.lockTryAcquire l
  | .tryHolder l => some (s.tryHolder l)
  | .tryInsert l => some (s.tryInsert l)
  | .lockRelease l => s.lockRelease l
  | .releaseDonated l => some (s.releaseDonated l)
  | .releaseHolder l => some (s.releaseHolder l)
  | .releaseSema l => some (s.releaseSema l)
  | .releasePriority => some (s.threadSetPriority s.cur.basePriority)
  | .setPriority n => some (s.threadSetPriority n)
  | .recheck old => some (s.recheck old)
  | .takeTid p => some (s.takeTid p)
  | .startThread t => some (s.startThread t)
  | .yieldIfHigher t => some (s.yieldIfHigher t)
  | .kernelThread _ => some s
  | .condWait c l => s.condWait c l
  | .condSignal c l => s.condSignal c l
  | .sleep n => some (s.timerSleep n)
  | .slept => some s
  | .block => some (s.threadBlock .unblocked)
  | .unblocked => some s
  | .unblock t => if (s.thread t).status = .blocked then some (s.threadUnblock t) else none
  | .yield => some s.threadYield
  | .exit => some s.threadExit
  | .idle => some (s.threadBlock .idle)

/-- The loop of `timer_interrupt`, `devices/timer.c:189–200`, over the sleeping threads, and
whether the running thread has to yield. -/
def wakeSleepers (s : Kernel) : List Tid → Bool → Kernel × Bool
  | [], y => (s, y)
  | t :: rest, y =>
    if s.ticks < (s.thread t).wakeupTick then (s, y)
    else ({ s with sleepingList := rest }.threadUnblock t).wakeSleepers rest
      (y || decide (s.cur.priority < (s.thread t).priority))

/-- `timer_interrupt` with `thread_tick`, `devices/timer.c:178–203`, and the return from the
interrupt. -/
def timerInterrupt (s : Kernel) : Kernel :=
  let s := { s with ticks := s.ticks + 1, threadTicks := s.threadTicks + 1 }
  let r := s.wakeSleepers s.sleepingList (decide (TIME_SLICE ≤ s.threadTicks))
  if r.2 then r.1.threadYield else r.1

/-- Remove the piece of code that the running thread is about to run. -/
def pop (s : Kernel) : Kernel :=
  s.modify s.current fun th => { th with todo := th.todo.tail }

/-- The running thread may be interrupted. -/
def interruptible (s : Kernel) : Bool := s.cur.todo.head?.all Action.interruptible

end Kernel

/-- What happens next: the running thread begins an operation or runs the next piece of one, or
the timer interrupts it. -/
inductive Input
  | op (o : Op)
  | run
  | tick
  deriving DecidableEq, Repr

/-- One step of the system. -/
def step (s : Kernel) : Input → Option Kernel
  | .op o => if s.cur.todo = [] ∧ o.InRange then some (s.push o.code) else none
  | .run =>
    match s.cur.todo with
    | [] => none
    | a :: _ => s.pop.exec a
  | .tick => if s.interruptible then some s.timerInterrupt else none

section Step

variable {s s' : Kernel}

theorem step_op {o : Op} (h : step s (.op o) = some s') :
    (s.cur.todo = [] ∧ o.InRange) ∧ s' = s.push o.code := by
  simp only [step, Option.ite_none_right_eq_some, Option.some.injEq] at h
  exact ⟨h.1, h.2.symm⟩

theorem step_run (h : step s .run = some s') :
    ∃ a rest, s.cur.todo = a :: rest ∧ s.pop.exec a = some s' := by
  simp only [step] at h
  split at h
  · cases h
  · exact ⟨_, _, ‹_›, h⟩

theorem step_tick (h : step s .tick = some s') :
    s.interruptible = true ∧ s' = s.timerInterrupt := by
  simp only [step, Option.ite_none_right_eq_some, Option.some.injEq] at h
  exact ⟨h.1, h.2.symm⟩

end Step

/-- The initial thread and the idle thread. -/
def mainThread : Tid := 1

@[inherit_doc mainThread]
def idleTid : Tid := 2

/-- The state that `thread_init` and `thread_start` leave, `threads/thread.c:137–171`, with
semaphores that `sema_init` gave the values `v`: the idle thread has yielded to the initial
thread and is about to block. -/
def threadStart (v : Nat → Nat) : Kernel where
  thread t :=
    if t = mainThread then initThread .running PRI_DEFAULT []
    else if t = idleTid then initThread .ready PRI_MIN [.idle]
    else initThread .dead PRI_MIN []
  current := mainThread
  idleThread := idleTid
  readyList := []
  sleepingList := []
  sema
    | .sema n => ⟨v n % 2 ^ 32, [], 0, 0⟩
    | .lock _ => ⟨1, [], 0, 0⟩
    | .cond _ => ⟨0, [], 0, 0⟩
  lock _ := ⟨none, PRI_MIN, []⟩
  cond _ := []
  ticks := 0
  threadTicks := 0
  nextTid := 3
  nextWaiter := 0
  failed := false

end Pintos.Threads

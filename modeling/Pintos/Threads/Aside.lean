import Pintos.Threads.Effect

/-!
# What few operations touch

The sleeping list and the clock belong to the timer, the waiters of conditions to `cond_wait` and
`cond_signal`; no other piece of code changes them. A thread that is ready or running stays so
while others run, and only its own code can block it.
-/

namespace Pintos.Threads

/-- The sleeping list, the clock, the waiters of the conditions and the next waiter. -/
def Kernel.aside (s : Kernel) : List Tid × Int × (CondId → List (Nat × Int)) × Nat :=
  (s.sleepingList, s.ticks, s.cond, s.nextWaiter)

section Aside

variable (s : Kernel)

@[simp] theorem aside_modify (t : Tid) (f : Thread → Thread) : (s.modify t f).aside = s.aside := rfl

@[simp] theorem aside_push (as : List Action) : (s.push as).aside = s.aside := rfl

@[simp] theorem aside_modifySema (k : SemaId) (f : Semaphore → Semaphore) :
    (s.modifySema k f).aside = s.aside := rfl

@[simp] theorem aside_modifyLock (l : LockId) (f : Lock → Lock) :
    (s.modifyLock l f).aside = s.aside := rfl

@[simp] theorem aside_schedule : s.schedule.aside = s.aside := by
  unfold Kernel.schedule
  split <;> rfl

@[simp] theorem aside_threadBlock (again : Action) : (s.threadBlock again).aside = s.aside :=
  aside_schedule _

@[simp] theorem aside_threadUnblock (t : Tid) : (s.threadUnblock t).aside = s.aside := rfl

@[simp] theorem aside_threadYield : s.threadYield.aside = s.aside := aside_schedule _

@[simp] theorem aside_threadExit : s.threadExit.aside = s.aside := aside_schedule _

@[simp] theorem aside_recheck (old : Int) : (s.recheck old).aside = s.aside := by
  unfold Kernel.recheck
  split
  · split
    · rfl
    · split
      · exact aside_threadYield s
      · rfl
  · rfl

@[simp] theorem aside_threadSetPriority (n : Int) : (s.threadSetPriority n).aside = s.aside := by
  unfold Kernel.threadSetPriority
  dsimp only
  split <;> simp

@[simp] theorem aside_semaDown (k : SemaId) : (s.semaDown k).aside = s.aside := by
  unfold Kernel.semaDown
  split <;> simp

@[simp] theorem aside_semaTryDown (k : SemaId) : (s.semaTryDown k).aside = s.aside := by
  unfold Kernel.semaTryDown
  split <;> simp

@[simp] theorem aside_semaUp (k : SemaId) : (s.semaUp k).aside = s.aside := by
  unfold Kernel.semaUp Kernel.wakeWaiter
  split <;> simp

@[simp] theorem aside_donate (l : LockId) : (s.donate l).aside = s.aside :=
  Kernel.donate_induct (P := fun m => m.aside = s.aside) (fun _ _ _ h => h) (fun _ _ _ h => h) rfl

@[simp] theorem aside_acquireDown (l : LockId) : (s.acquireDown l).aside = s.aside := by
  unfold Kernel.acquireDown
  split
  · simp
  · rfl

end Aside

variable {s s' : Kernel} {a : Action}

/-- The piece of code works on the sleeping list or on the waiters of a condition. -/
def Action.stepsAside : Action → Bool
  | sleep _ | condWait _ _ | condSignal _ _ => true
  | _ => false

theorem aside_exec (ha : a.stepsAside = false) (h : s.exec a = some s') : s'.aside = s.aside := by
  cases a with
  | sleep n => cases ha
  | condWait c l => cases ha
  | condSignal c l => cases ha
  | lockAcquire l =>
    simp only [Kernel.exec, Kernel.lockAcquire, Option.ite_none_left_eq_some,
      Option.some.injEq] at h
    rw [← h.2]
    simp
  | lockTryAcquire l =>
    simp only [Kernel.exec, Kernel.lockTryAcquire, Option.ite_none_left_eq_some] at h
    obtain ⟨-, h⟩ := h
    split at h
    · cases h
      rfl
    · cases h
      simp
  | lockRelease l =>
    simp only [Kernel.exec, Kernel.lockRelease, Option.ite_none_right_eq_some,
      Option.some.injEq] at h
    rw [← h.2]
    rfl
  | unblock t =>
    simp only [Kernel.exec, Option.ite_none_right_eq_some, Option.some.injEq] at h
    rw [← h.2]
    rfl
  | yieldIfHigher t =>
    simp only [Kernel.exec, Kernel.yieldIfHigher, Option.some.injEq] at h
    subst h
    split
    · exact aside_threadYield s
    · rfl
  | takeTid p =>
    cases h
    rfl
  | _ =>
    cases h
    simp [Kernel.tryHolder, Kernel.tryInsert, Kernel.releaseDonated, Kernel.releaseHolder,
      Kernel.releaseSema, Kernel.startThread]

theorem aside_condWait {c : CondId} {l : LockId} (h : s.condWait c l = some s') :
    s'.aside = (s.sleepingList, s.ticks, Function.update s.cond c
      ((s.cond c).orderedInsert (fun a b => b.2 < a.2) (s.nextWaiter, s.cur.priority)),
      s.nextWaiter + 1) := by
  simp only [Kernel.condWait, Option.ite_none_right_eq_some, Option.some.injEq] at h
  rw [← h.2]
  rfl

/-- The waiter that a signal takes off the condition, and those it leaves. -/
def Kernel.inLine (s : Kernel) (c : CondId) : List (Nat × Int) :=
  (s.cond c).insertionSort fun a b => b.2 ≤ a.2

theorem aside_condSignal {c : CondId} {l : LockId} (h : s.condSignal c l = some s') :
    s'.aside = (s.sleepingList, s.ticks, Function.update s.cond c (s.inLine c).tail,
      s.nextWaiter) := by
  simp only [Kernel.condSignal, Option.ite_none_right_eq_some] at h
  obtain ⟨-, h⟩ := h
  unfold Kernel.inLine
  split at h
  · next hnil =>
    cases h
    have hc : s.cond c = [] := by
      have hlen := congrArg List.length hnil
      rw [List.length_insertionSort] at hlen
      exact List.length_eq_zero_iff.mp hlen
    rw [hnil, List.tail_nil, ← hc, Function.update_eq_self]
    rfl
  · next hcons =>
    cases h
    rw [hcons, aside_semaUp]
    rfl

end Pintos.Threads

import Pintos.Threads.Synch

/-!
# What scheduling does not touch

Moving threads between queues changes their status and the queues and nothing else. `effect` is
what a piece of code does to the rest of the state: priorities, locks, semaphore values and the
code still to be run. Invariants of that part are proved over `effect` alone.
-/

namespace Pintos.Threads

/-- The two states differ at most in the status of threads, in the queues and in the clock. -/
structure Moved (s s' : Kernel) : Prop where
  thread : ∀ t, s'.thread t = { s.thread t with status := (s'.thread t).status }
  sema : ∀ k, s'.sema k = { s.sema k with waiters := (s'.sema k).waiters }
  lock : s'.lock = s.lock
  idleThread : s'.idleThread = s.idleThread
  nextTid : s'.nextTid = s.nextTid

namespace Moved

variable {s s' s'' : Kernel}

private theorem refl (s : Kernel) : Moved s s := ⟨fun _ => rfl, fun _ => rfl, rfl, rfl, rfl⟩

private theorem trans (h : Moved s s') (h' : Moved s' s'') : Moved s s'' where
  thread t := by rw [h'.thread t, h.thread t]
  sema k := by rw [h'.sema k, h.sema k]
  lock := h'.lock.trans h.lock
  idleThread := h'.idleThread.trans h.idleThread
  nextTid := h'.nextTid.trans h.nextTid

theorem todo (h : Moved s s') (t : Tid) : (s'.thread t).todo = (s.thread t).todo := by
  rw [h.thread t]

theorem priority (h : Moved s s') (t : Tid) : (s'.thread t).priority = (s.thread t).priority := by
  rw [h.thread t]

theorem basePriority (h : Moved s s') (t : Tid) :
    (s'.thread t).basePriority = (s.thread t).basePriority := by
  rw [h.thread t]

theorem donatedPriority (h : Moved s s') (t : Tid) :
    (s'.thread t).donatedPriority = (s.thread t).donatedPriority := by
  rw [h.thread t]

theorem waitingLock (h : Moved s s') (t : Tid) :
    (s'.thread t).waitingLock = (s.thread t).waitingLock := by
  rw [h.thread t]

theorem locks (h : Moved s s') (t : Tid) : (s'.thread t).locks = (s.thread t).locks := by
  rw [h.thread t]

theorem value (h : Moved s s') (k : SemaId) : (s'.sema k).value = (s.sema k).value := by
  rw [h.sema k]

theorem modifyStatus (s : Kernel) (t : Tid) (st : Status) :
    Moved s (s.modify t fun th => { th with status := st }) where
  thread u := by
    by_cases hu : u = t
    · subst hu
      simp [Kernel.modify]
    · simp [Kernel.modify, hu]
  sema _ := rfl
  lock := rfl
  idleThread := rfl
  nextTid := rfl

private theorem modifyWaiters (s : Kernel) (k : SemaId) (f : List Tid → List Tid) :
    Moved s (s.modifySema k fun m => { m with waiters := f m.waiters }) where
  thread _ := rfl
  sema j := by
    by_cases hj : j = k
    · subst hj
      simp [Kernel.modifySema]
    · simp [Kernel.modifySema, hj]
  lock := rfl
  idleThread := rfl
  nextTid := rfl

theorem switchTo (s : Kernel) (next : Tid) : Moved s (s.switchTo next) :=
  { modifyStatus s next .running with }

theorem schedule (s : Kernel) : Moved s s.schedule := by
  unfold Kernel.schedule
  split
  · exact switchTo s _
  · rename_i next rest _
    exact { switchTo { s with readyList := rest } next with }

theorem threadUnblock (s : Kernel) (t : Tid) : Moved s (s.threadUnblock t) :=
  { modifyStatus s t .ready with }

theorem threadYield (s : Kernel) : Moved s s.threadYield := by
  refine trans ?_ (schedule _)
  exact { modifyStatus s s.current .ready with }

private theorem threadExit (s : Kernel) : Moved s s.threadExit :=
  ((modifyStatus s s.current .dying).trans (schedule _)).trans (modifyStatus _ s.current .dead)

theorem threadBlock (s : Kernel) (again : Action) :
    Moved (s.push [again]) (s.threadBlock again) :=
  (modifyStatus (s.push [again]) s.current .blocked).trans (schedule _)

private theorem recheck (s : Kernel) (old : Int) : Moved s (s.recheck old) := by
  unfold Kernel.recheck
  split
  · split
    · exact refl s
    · split
      · exact threadYield s
      · exact refl s
  · exact refl s

private theorem wakeWaiter (s : Kernel) (k : SemaId) : Moved s (s.wakeWaiter k) := by
  unfold Kernel.wakeWaiter
  split
  · exact refl s
  · rename_i t rest _
    exact (modifyWaiters s k fun _ => rest).trans (threadUnblock _ t)

private theorem wakeSleepers (s : Kernel) (ts : List Tid) (y : Bool) :
    Moved s (s.wakeSleepers ts y).1 := by
  induction ts generalizing s y with
  | nil => exact refl s
  | cons t rest ih =>
    rw [Kernel.wakeSleepers]
    split
    · exact refl s
    · have hu : Moved s ({ s with sleepingList := rest }.threadUnblock t) :=
        { threadUnblock { s with sleepingList := rest } t with }
      exact hu.trans (ih _ _)

theorem timerInterrupt (s : Kernel) : Moved s s.timerInterrupt := by
  let s1 : Kernel := { s with ticks := s.ticks + 1, threadTicks := s.threadTicks + 1 }
  have hw : Moved s (s1.wakeSleepers s1.sleepingList (decide (TIME_SLICE ≤ s1.threadTicks))).1 :=
    { wakeSleepers s1 s1.sleepingList (decide (TIME_SLICE ≤ s1.threadTicks)) with }
  unfold Kernel.timerInterrupt
  dsimp only
  split
  · exact hw.trans (threadYield _)
  · exact hw

private theorem push (h : Moved s s') (hc : s'.current = s.current) (as : List Action) :
    Moved (s.push as) (s'.push as) where
  thread t := by
    have ht := h.thread t
    by_cases hu : t = s.current
    · subst hu
      simp only [Kernel.push, Kernel.modify, hc, Function.update_self]
      rw [ht]
    · simpa [Kernel.push, Kernel.modify, hc, hu] using ht
  sema := h.sema
  lock := h.lock
  idleThread := h.idleThread
  nextTid := h.nextTid

private theorem countUp (h : Moved s s') (k : SemaId) :
    Moved (s.modifySema k fun m => { m with value := (m.value + 1) % 2 ^ 32, ups := m.ups + 1 })
      (s'.modifySema k fun m =>
        { m with value := (m.value + 1) % 2 ^ 32, ups := m.ups + 1 }) where
  thread := h.thread
  sema j := by
    have hj := h.sema j
    by_cases he : j = k
    · subst he
      simp only [Kernel.modifySema, Function.update_self]
      rw [hj]
    · simpa [Kernel.modifySema, he] using hj
  lock := h.lock
  idleThread := h.idleThread
  nextTid := h.nextTid

end Moved

namespace Kernel

/-- `sema_down` without the queues. -/
def semaDownEffect (s : Kernel) (k : SemaId) : Kernel :=
  if (s.sema k).value = 0 then s.push [.semaRetest k]
  else s.modifySema k fun m => { m with value := m.value - 1, downs := m.downs + 1 }

/-- `sema_up` without the queues. -/
def semaUpEffect (s : Kernel) (k : SemaId) : Kernel :=
  s.modifySema k fun m => { m with value := (m.value + 1) % 2 ^ 32, ups := m.ups + 1 }

/-- `lock_acquire` from the test of the semaphore's value, without the queues. -/
def acquireEffect (s : Kernel) (l : LockId) : Kernel :=
  if (s.sema (.lock l)).value = 0 then s.push [.lockRetest l] else s.takeLock l

/-- `thread_set_priority` without the queues. -/
def setPriorityEffect (s : Kernel) (n : Int) : Kernel :=
  let s' := s.modify s.current fun th =>
    { th with basePriority := n, priority := newPriority th n }
  if s.cur.priority < s'.cur.priority then s'.push [.recheck s.cur.priority] else s'

/-- What a piece of code does apart from moving threads between queues. -/
def effect (s : Kernel) : Action → Option Kernel
  | .semaDown k => some (s.semaDownEffect k)
  | .semaRetest k => some (s.semaDownEffect k)
  | .semaTryDown k => some (s.semaTryDown k)
  | .semaUp k => some ((s.push [.semaYield]).semaUpEffect k)
  | .lockAcquire l =>
    if (s.lock l).holder = some s.current then none else some ((s.donate l).acquireEffect l)
  | .lockRetest l => some (s.acquireEffect l)
  | .lockTryAcquire l => s.lockTryAcquire l
  | .tryHolder l => some (s.tryHolder l)
  | .tryInsert l => some (s.tryInsert l)
  | .lockRelease l => s.lockRelease l
  | .releaseDonated l => some (s.releaseDonated l)
  | .releaseHolder l => some (s.releaseHolder l)
  | .releaseSema l => some ((s.push [.semaYield, .releasePriority]).semaUpEffect (.lock l))
  | .releasePriority => some (s.setPriorityEffect s.cur.basePriority)
  | .setPriority n => some (s.setPriorityEffect n)
  | .takeTid p => some (s.takeTid p)
  | .startThread t => some (s.push [.yieldIfHigher t])
  | .condWait c l => s.condWait c l
  | .condSignal c l =>
    if (s.lock l).holder = some s.current then
      match (s.cond c).insertionSort (fun a b => b.2 ≤ a.2) with
      | [] => some s
      | w :: rest =>
        some (({ s with cond := Function.update s.cond c rest }.push [.semaYield]).semaUpEffect
          (.cond w.1))
    else none
  | .sleep n =>
    if n ≤ 0 then some s
    else some ((s.modify s.current fun th => { th with wakeupTick := s.ticks + n }).push [.slept])
  | .block => some (s.push [.unblocked])
  | .idle => some (s.push [.idle])
  | .unblock t => if (s.thread t).status = .blocked then some s else none
  | .semaYield | .recheck _ | .yieldIfHigher _ | .kernelThread _ | .slept | .unblocked
  | .yield | .exit => some s

private theorem moved_semaDown (s : Kernel) (k : SemaId) :
    Moved (s.semaDownEffect k) (s.semaDown k) := by
  unfold semaDownEffect semaDown
  split
  · exact ((Moved.modifyWaiters s k (s.insertOrdered s.current)).push rfl _).trans
      (Moved.threadBlock _ _)
  · exact Moved.refl _

private theorem moved_acquireDown (s : Kernel) (l : LockId) :
    Moved (s.acquireEffect l) (s.acquireDown l) := by
  unfold acquireEffect acquireDown
  split
  · exact ((Moved.modifyWaiters s (.lock l) (s.insertOrdered s.current)).push rfl _).trans
      (Moved.threadBlock _ _)
  · exact Moved.refl _

theorem moved_semaUp (s : Kernel) (k : SemaId) : Moved (s.semaUpEffect k) (s.semaUp k) :=
  (Moved.wakeWaiter s k).countUp k

private theorem moved_threadSetPriority (s : Kernel) (n : Int) :
    Moved (s.setPriorityEffect n) (s.threadSetPriority n) := by
  unfold setPriorityEffect threadSetPriority
  dsimp only
  split
  · exact Moved.threadYield _
  · exact Moved.recheck _ _

theorem exec_effect {s s' : Kernel} {a : Action} (h : s.exec a = some s') :
    ∃ m, s.effect a = some m ∧ Moved m s' := by
  cases a with
  | semaDown k | semaRetest k =>
    cases h
    exact ⟨_, rfl, moved_semaDown s k⟩
  | semaUp k =>
    cases h
    exact ⟨_, rfl, moved_semaUp _ k⟩
  | lockAcquire l =>
    simp only [exec, lockAcquire] at h
    split at h
    · cases h
    · rename_i hh
      cases h
      exact ⟨_, if_neg hh, moved_acquireDown _ l⟩
  | lockRetest l =>
    cases h
    exact ⟨_, rfl, moved_acquireDown s l⟩
  | releaseSema l =>
    cases h
    exact ⟨_, rfl, moved_semaUp _ (.lock l)⟩
  | releasePriority =>
    cases h
    exact ⟨_, rfl, moved_threadSetPriority s _⟩
  | setPriority n =>
    cases h
    exact ⟨_, rfl, moved_threadSetPriority s n⟩
  | startThread t =>
    cases h
    exact ⟨_, rfl, Moved.threadUnblock _ t⟩
  | condSignal c l =>
    simp only [exec, condSignal] at h
    simp only [effect]
    split at h
    · rename_i hh
      rw [if_pos hh]
      cases hw : (s.cond c).insertionSort (fun a b => b.2 ≤ a.2) with
      | nil =>
        simp only [hw, Option.some.injEq] at h
        cases h
        exact ⟨_, rfl, Moved.refl s⟩
      | cons w rest =>
        simp only [hw, Option.some.injEq] at h
        cases h
        exact ⟨_, rfl, moved_semaUp _ _⟩
    · cases h
  | sleep n =>
    simp only [exec, timerSleep, Option.some.injEq] at h
    subst h
    simp only [effect]
    split
    · exact ⟨_, rfl, Moved.refl s⟩
    · refine ⟨_, rfl, ?_⟩
      refine Moved.trans ?_ (Moved.threadBlock _ _)
      exact { Moved.refl _ with }
  | block | idle =>
    cases h
    exact ⟨_, rfl, Moved.threadBlock s _⟩
  | unblock t =>
    simp only [exec] at h
    split at h
    · rename_i hb
      cases h
      exact ⟨s, if_pos hb, Moved.threadUnblock s t⟩
    · cases h
  | semaYield | yield =>
    cases h
    exact ⟨s, rfl, Moved.threadYield s⟩
  | exit =>
    cases h
    exact ⟨s, rfl, Moved.threadExit s⟩
  | recheck old =>
    cases h
    exact ⟨s, rfl, Moved.recheck s old⟩
  | yieldIfHigher t =>
    simp only [exec, yieldIfHigher, Option.some.injEq] at h
    subst h
    refine ⟨s, rfl, ?_⟩
    split
    · exact Moved.threadYield s
    · exact Moved.refl s
  | _ => exact ⟨s', h, Moved.refl s'⟩

end Kernel

/-- Of the other threads that exist, nothing but the priority and the donation differ. -/
structure OthersKept (s m : Kernel) : Prop where
  thread : ∀ t, t ≠ s.current → (t ≠ s.nextTid ∨ m.nextTid = s.nextTid) → ∃ p d, m.thread t =
    { s.thread t with priority := p, donatedPriority := d }
  current : m.current = s.current
  nextTid : s.nextTid ≤ m.nextTid
  made : m.nextTid ≠ s.nextTid → m.current ≠ s.nextTid →
    (m.thread s.nextTid).waitingLock = none

namespace OthersKept

variable {s m m' : Kernel}

private theorem refl (s : Kernel) : OthersKept s s :=
  ⟨fun _ _ _ => ⟨_, _, rfl⟩, rfl, le_rfl, fun h => absurd rfl h⟩

private theorem modify (h : OthersKept s m) (f : Thread → Thread) :
    OthersKept s (m.modify m.current f) where
  thread t ht hn := by
    have htm : t ≠ m.current := by
      rw [h.current]
      exact ht
    obtain ⟨p, d, he⟩ := h.thread t ht hn
    exact ⟨p, d, by simp [Kernel.modify, htm, he]⟩
  current := h.current
  nextTid := h.nextTid
  made hn hc := by
    have hne : s.nextTid ≠ m.current := fun he => hc he.symm
    simpa [Kernel.modify, hne] using h.made hn hc

private theorem push (h : OthersKept s m) (as : List Action) :
    OthersKept s (m.push as) := h.modify _

private theorem raiseThread (h : OthersKept s m) (u : Tid) (p : Int) :
    OthersKept s (m.raiseThread u p) where
  thread t ht hn := by
    obtain ⟨q, d, he⟩ := h.thread t ht hn
    by_cases hu : t = u
    · subst hu
      simp only [Kernel.raiseThread, Kernel.modify, Function.update_self, he]
      exact ⟨_, _, rfl⟩
    · exact ⟨q, d, by simp [Kernel.raiseThread, Kernel.modify, hu, he]⟩
  current := h.current
  nextTid := h.nextTid
  made hn hc := by
    have hm := h.made hn hc
    by_cases hu : s.nextTid = u
    · subst hu
      simpa [Kernel.raiseThread, Kernel.modify] using hm
    · simpa [Kernel.raiseThread, Kernel.modify, hu] using hm

theorem donate (s : Kernel) (l : LockId) : OthersKept s (s.donate l) :=
  Kernel.donate_induct (fun _ _ _ h => { h with }) (fun _ _ _ h => h.raiseThread _ _)
    ((refl s).modify _)

private theorem takeLock (h : OthersKept s m) (l : LockId) : OthersKept s (m.takeLock l) := by
  unfold Kernel.takeLock
  refine modify (m := (m.modifySema _ _).modifyLock l _) ?_ _
  exact { h with }

private theorem acquireEffect (h : OthersKept s m) (l : LockId) :
    OthersKept s (m.acquireEffect l) := by
  unfold Kernel.acquireEffect
  split
  · exact h.push _
  · exact h.takeLock l

private theorem semaTryDown (s : Kernel) (k : SemaId) : OthersKept s (s.semaTryDown k) := by
  unfold Kernel.semaTryDown
  split
  · exact refl s
  · exact { refl s with }

private theorem semaDownEffect (s : Kernel) (k : SemaId) : OthersKept s (s.semaDownEffect k) := by
  unfold Kernel.semaDownEffect
  split
  · exact (refl s).push _
  · exact { refl s with }

private theorem setPriorityEffect (s : Kernel) (n : Int) :
    OthersKept s (s.setPriorityEffect n) := by
  unfold Kernel.setPriorityEffect
  dsimp only
  split
  · exact ((refl s).modify _).push _
  · exact (refl s).modify _

private theorem takeTid (s : Kernel) (p : Int) : OthersKept s (s.takeTid p) := by
  have hnew : OthersKept s { s.modify s.nextTid fun _ =>
      initThread .blocked p [.kernelThread s.current] with nextTid := s.nextTid + 1 } := by
    refine ⟨fun t _ hn => ?_, rfl, Nat.le_succ _, fun _ _ => ?_⟩
    · simp only [Kernel.modify, Function.update_of_ne (hn.resolve_right (Nat.succ_ne_self _))]
      exact ⟨_, _, rfl⟩
    · simp [Kernel.modify, initThread]
  exact hnew.push _

/-- A piece of code changes the running thread, donates, and may make a thread. -/
theorem effect {a : Action} (h : s.effect a = some m) : OthersKept s m := by
  have hrefl := refl s
  cases a with
  | semaDown k | semaRetest k =>
    cases h
    exact semaDownEffect s k
  | semaTryDown k =>
    cases h
    exact semaTryDown s k
  | semaUp k =>
    cases h
    exact { hrefl.push _ with }
  | lockAcquire l =>
    simp only [Kernel.effect] at h
    split at h
    · cases h
    · cases h
      exact (donate s l).acquireEffect l
  | lockRetest l =>
    cases h
    exact hrefl.acquireEffect l
  | lockTryAcquire l =>
    simp only [Kernel.effect, Kernel.lockTryAcquire] at h
    split at h
    · cases h
    · split at h
      · cases h
        exact hrefl
      · cases h
        exact (semaTryDown s _).push _
  | tryHolder l | releaseHolder l | releaseSema l =>
    cases h
    exact { hrefl.push _ with }
  | tryInsert l =>
    cases h
    exact OthersKept.modify (m := s.modifyLock l _) { hrefl with } _
  | lockRelease l =>
    simp only [Kernel.effect, Kernel.lockRelease] at h
    split at h
    · cases h
      exact OthersKept.push (OthersKept.modify (m := s.modifyLock l _) { hrefl with } _) _
    · cases h
  | releaseDonated l =>
    cases h
    exact (hrefl.modify _).push _
  | releasePriority =>
    cases h
    exact setPriorityEffect s _
  | setPriority n =>
    cases h
    exact setPriorityEffect s n
  | takeTid p =>
    cases h
    exact takeTid s p
  | startThread t =>
    cases h
    exact hrefl.push _
  | condWait c l =>
    simp only [Kernel.effect, Kernel.condWait] at h
    split at h
    · cases h
      exact { hrefl.push _ with }
    · cases h
  | condSignal c l =>
    simp only [Kernel.effect] at h
    split at h
    · split at h
      · cases h
        exact hrefl
      · cases h
        exact { hrefl.push _ with }
    · cases h
  | sleep n =>
    simp only [Kernel.effect] at h
    split at h
    · cases h
      exact hrefl
    · cases h
      exact (hrefl.modify _).push _
  | block | idle =>
    cases h
    exact hrefl.push _
  | unblock t =>
    simp only [Kernel.effect] at h
    split at h
    · cases h
      exact hrefl
    · cases h
  | _ =>
    cases h
    exact hrefl

end OthersKept

end Pintos.Threads

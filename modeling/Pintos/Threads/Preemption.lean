import Pintos.Base.StableSort
import Pintos.Threads.LockOwnership

/-!
# Preemption by priority

The run queue stays sorted by priority, and no thread on it has a greater priority than the
running thread, except while the running thread has woken a thread and is about to yield to it
itself: in `thread_create` after `thread_unblock` and in `sema_up` after interrupts are on again.
Source `threads/thread.c:288–339, 395–411, 430–456`, `threads/synch.c:122–142`,
`devices/timer.c:178–203`.
-/

namespace Pintos.Threads

open Base

namespace Kernel

/-- `ready_list` is sorted by non-increasing priority. -/
def ReadySorted (s : Kernel) : Prop := s.readyList.Pairwise s.AtLeast

/-- The running thread has at least the priority of every ready thread. -/
def Top (s : Kernel) : Prop := ∀ t ∈ s.readyList, (s.thread t).priority ≤ s.cur.priority

instance (s : Kernel) : Decidable s.ReadySorted := by
  unfold ReadySorted
  infer_instance

instance (s : Kernel) : Decidable s.Top := by
  unfold Top
  infer_instance

end Kernel

/-- The code that lets a thread of greater priority run which its own thread has made ready. -/
def Action.yieldsTo : Action → Tid → Bool
  | semaYield, _ => true
  | yieldIfHigher u, t => u == t
  | _, _ => false

/-- The code that ends with the running thread's own decision to yield. -/
def Action.yields : Action → Bool
  | semaYield | yieldIfHigher _ => true
  | _ => false

private theorem Action.yields_of_yieldsTo {a : Action} {t : Tid} (h : a.yieldsTo t = true) :
    a.yields = true := by
  cases a <;> first | rfl | cases h

/-- The running thread has woken a thread and is about to yield. -/
def Kernel.aboutToYield (s : Kernel) : Bool := s.cur.todo.head?.any Action.yields

/-- The run queue is sorted, and the running thread is about to yield to each thread on it that
has a greater priority. -/
structure PreemptInv (s : Kernel) : Prop where
  sorted : s.ReadySorted
  top : ∀ t ∈ s.readyList, (s.thread t).priority ≤ s.cur.priority ∨
    s.cur.todo.head?.any (fun a => a.yieldsTo t) = true

section

variable {s s' : Kernel}

private theorem pairwise_insertOrdered {ts : List Tid} (h : ts.Pairwise s.AtLeast) (t : Tid) :
    (s.insertOrdered t ts).Pairwise s.AtLeast := by
  refine StableSort.pairwise_orderedInsert ?_ ?_ ?_ h t
  · exact fun _ _ hlt => Int.le_of_lt hlt
  · exact fun _ _ hnot => Int.not_lt.mp hnot
  · exact fun _ _ _ hab hbc => Int.le_trans hbc hab

private theorem priority_modify (s : Kernel) (t : Tid) {f : Thread → Thread}
    (hf : ∀ th, (f th).priority = th.priority) (u : Tid) :
    ((s.modify t f).thread u).priority = (s.thread u).priority :=
  Kernel.field_modify Thread.priority (hf _) u

private theorem priority_push (s : Kernel) (as : List Action) (t : Tid) :
    ((s.push as).thread t).priority = (s.thread t).priority := by
  apply priority_modify
  exact fun _ => rfl

private theorem Kernel.ReadySorted.congr (h : s.ReadySorted) (hr : s'.readyList = s.readyList)
    (hp : ∀ t ∈ s.readyList, (s'.thread t).priority = (s.thread t).priority) :
    s'.ReadySorted := by
  unfold Kernel.ReadySorted
  rw [hr]
  refine h.imp_of_mem fun {a b} ha hb hab => ?_
  unfold Kernel.AtLeast
  rw [hp a ha, hp b hb]
  exact hab

private theorem Kernel.Top.congr (h : s.Top) (hr : s'.readyList = s.readyList)
    (hc : s'.cur.priority = s.cur.priority)
    (hp : ∀ t ∈ s.readyList, (s'.thread t).priority = (s.thread t).priority) : s'.Top := by
  intro t ht
  rw [hr] at ht
  rw [hp t ht, hc]
  exact h t ht

private theorem Kernel.ReadySorted.threadUnblock (h : s.ReadySorted) (t : Tid) :
    (s.threadUnblock t).ReadySorted := by
  refine (pairwise_insertOrdered h t).imp fun {a b} hab => ?_
  unfold Kernel.AtLeast
  rw [(Moved.threadUnblock s t).priority, (Moved.threadUnblock s t).priority]
  exact hab

private theorem mem_threadUnblock {t u : Tid} :
    u ∈ (s.threadUnblock t).readyList ↔ u = t ∨ u ∈ s.readyList :=
  List.mem_orderedInsert _

end

namespace PreemptInv

variable {s s' : Kernel}

private theorem of_top (hs : s.ReadySorted) (ht : s.Top) : PreemptInv s :=
  ⟨hs, fun t h => Or.inl (ht t h)⟩

private theorem of_semaYield (hs : s.ReadySorted) (hy : s.cur.todo.head? = some .semaYield) :
    PreemptInv s :=
  ⟨hs, fun _ _ => Or.inr (by rw [hy]; rfl)⟩

/-- The run queue and the priorities of everyone on it and of the running thread are as before. -/
theorem of_same (hs : s.ReadySorted) (ht : s.Top) (hr : s'.readyList = s.readyList)
    (hc : s'.cur.priority = s.cur.priority)
    (hp : ∀ t ∈ s.readyList, (s'.thread t).priority = (s.thread t).priority) : PreemptInv s' :=
  of_top (hs.congr hr hp) (ht.congr hr hc hp)

/-- The scheduler takes a thread of the greatest priority and leaves the others sorted. -/
theorem schedule (s : Kernel) : PreemptInv s.schedule := by
  have htotal : Std.Total s.AtLeast := ⟨fun a b => Int.le_total _ _⟩
  have htrans : IsTrans Tid s.AtLeast := ⟨fun a b c hab hbc => Int.le_trans hbc hab⟩
  have hsorted : (s.sorted s.readyList).Pairwise s.AtLeast := List.pairwise_insertionSort _ _
  have hp := (Moved.schedule s).priority
  unfold Kernel.schedule at hp ⊢
  split
  · rename_i hnil
    have hempty : s.readyList = [] := by
      have hperm : (s.sorted s.readyList).Perm s.readyList := List.perm_insertionSort _ _
      rw [hnil] at hperm
      exact hperm.symm.eq_nil
    refine of_top ?_ fun t ht => ?_
    · unfold Kernel.ReadySorted
      rw [show (s.switchTo s.idleThread).readyList = [] from hempty]
      exact List.Pairwise.nil
    · rw [show (s.switchTo s.idleThread).readyList = [] from hempty] at ht
      cases ht
  · rename_i next rest hcons
    simp only [hcons] at hp
    rw [hcons] at hsorted
    obtain ⟨hnext, hrest⟩ := List.pairwise_cons.mp hsorted
    refine of_top ?_ fun t ht => ?_
    · refine List.Pairwise.imp (fun {a b} hab => ?_) hrest
      unfold Kernel.AtLeast
      rw [hp, hp]
      exact hab
    · rw [Kernel.cur, hp, hp]
      exact hnext t ht

private theorem threadYield (s : Kernel) : PreemptInv s.threadYield := schedule _

private theorem threadBlock (s : Kernel) (again : Action) :
    PreemptInv (s.threadBlock again) := schedule _

private theorem threadExit (s : Kernel) : PreemptInv s.threadExit := by
  let m : Kernel := s.modify s.current fun th => { th with status := .dying }
  have hm : PreemptInv m.schedule := schedule m
  have hmoved : Moved m.schedule s.threadExit := Moved.modifyStatus m.schedule s.current .dead
  refine ⟨hm.sorted.congr rfl fun t _ => hmoved.priority t, fun t ht => ?_⟩
  have hcur : s.threadExit.cur.todo = m.schedule.cur.todo := hmoved.todo m.schedule.current
  have hpri : s.threadExit.cur.priority = m.schedule.cur.priority :=
    hmoved.priority m.schedule.current
  rw [hmoved.priority, hcur, hpri]
  exact hm.top t ht

/-- A thread is made ready that the running thread does not have to yield to, or that it is about
to yield to. -/
theorem threadUnblock (h : PreemptInv s) {t : Tid}
    (ht : (s.thread t).priority ≤ s.cur.priority ∨
      s.cur.todo.head?.any (fun a => a.yieldsTo t) = true) : PreemptInv (s.threadUnblock t) := by
  have hm := Moved.threadUnblock s t
  refine ⟨h.sorted.threadUnblock t, fun u hu => ?_⟩
  have hcur : (s.threadUnblock t).cur.todo = s.cur.todo := hm.todo s.current
  have hpri : (s.threadUnblock t).cur.priority = s.cur.priority := hm.priority s.current
  rw [hm.priority, hcur, hpri]
  rcases mem_threadUnblock.mp hu with rfl | hu
  · exact ht
  · exact h.top u hu

private theorem semaUp (hs : s.ReadySorted) (hy : s.cur.todo.head? = some .semaYield) (k : SemaId) :
    PreemptInv (s.semaUp k) := by
  have hm : Moved (s.semaUpEffect k) (s.semaUp k) := Kernel.moved_semaUp s k
  refine of_semaYield ?_ ?_
  · unfold Kernel.semaUp Kernel.wakeWaiter
    split
    · exact hs
    · rename_i t rest _
      exact (Kernel.ReadySorted.threadUnblock
        (s := s.modifySema k fun m => { m with waiters := rest }) hs t).congr rfl fun _ _ => rfl
  · rw [Kernel.cur, current_semaUp, hm.todo]
    exact hy

/-- The check of the front of the run queue is enough, for the queue is sorted. -/
theorem recheck (hs : s.ReadySorted) {old : Int} (ht : s.cur.priority < old ∨ s.Top) :
    PreemptInv (s.recheck old) := by
  unfold Kernel.recheck
  split
  · split
    · rename_i hnil
      refine of_top hs fun t h => ?_
      rw [hnil] at h
      cases h
    · rename_i front rest hcons
      split
      · exact threadYield s
      · rename_i hle
        refine of_top hs fun t h => ?_
        unfold Kernel.ReadySorted at hs
        rw [hcons] at hs h
        have hfront : (s.thread t).priority ≤ (s.thread front).priority := by
          rcases List.mem_cons.mp h with rfl | h
          · exact le_rfl
          · exact (List.pairwise_cons.mp hs).1 t h
        omega
  · rename_i hold
    exact of_top hs (ht.resolve_left hold)

private theorem threadSetPriority (hs : s.ReadySorted) (ht : s.Top) (hc : s.current ∉ s.readyList)
    (n : Int) : PreemptInv (s.threadSetPriority n) := by
  let m : Kernel := s.modify s.current fun th =>
    { th with basePriority := n, priority := Kernel.newPriority th n }
  have hother : ∀ t ∈ s.readyList, (m.thread t).priority = (s.thread t).priority := by
    intro t hmem
    have hne : t ≠ s.current := fun he => hc (he ▸ hmem)
    simp [m, Kernel.modify, hne]
  have hsm : m.ReadySorted := hs.congr rfl hother
  unfold Kernel.threadSetPriority
  dsimp only
  split
  · exact threadYield _
  · rename_i hle
    refine recheck hsm ?_
    by_cases hlt : m.cur.priority < s.cur.priority
    · exact Or.inl hlt
    · refine Or.inr (ht.congr rfl ?_ hother)
      have hge : ¬ s.cur.priority < m.cur.priority := hle
      omega

/-- `lock_acquire` from the test of the semaphore's value: it blocks, or nothing moves. -/
theorem acquireDown {e : Kernel} {l : LockId} (he : (e.sema (.lock l)).value ≠ 0 → PreemptInv
    (e.takeLock l)) : PreemptInv (e.acquireDown l) := by
  unfold Kernel.acquireDown
  split
  · exact threadBlock _ _
  · rename_i hv
    exact he hv

private theorem takeLock (hs : s.ReadySorted) (ht : s.Top) (l : LockId) :
    PreemptInv (s.takeLock l) := by
  have hp : ∀ t, ((s.takeLock l).thread t).priority = (s.thread t).priority := by
    intro t
    unfold Kernel.takeLock
    refine (priority_modify _ _ ?_ t).trans rfl
    exact fun _ => rfl
  exact of_same hs ht rfl (hp s.current) fun t _ => hp t

end PreemptInv

/-- What the running thread runs next: nothing on the run queue may have a greater priority, unless
this piece of code yields to it. -/
theorem PreemptInv.exec {s s' : Kernel} {a : Action} (hs : s.ReadySorted)
    (ht : ∀ t ∈ s.readyList, (s.thread t).priority ≤ s.cur.priority ∨ a.yieldsTo t = true)
    (hc : s.current ∉ s.readyList) (hn : s.nextTid ∉ s.readyList) (hne : s.current ≠ s.nextTid)
    (hl : ∀ l, (s.sema (.lock l)).value ≠ 0 → (s.lock l).holder = none)
    (ha : ∀ t, a ≠ .unblock t) (he : s.exec a = some s') : PreemptInv s' := by
  have htop : a.yields = false → s.Top := by
    intro hy t hmem
    refine (ht t hmem).resolve_right fun hyt => ?_
    rw [Action.yields_of_yieldsTo hyt] at hy
    cases hy
  have hpush : ∀ (as : List Action) (t : Tid),
      ((s.push as).thread t).priority = (s.thread t).priority := priority_push s
  have hup : ∀ (as : List Action) (k : SemaId),
      PreemptInv ((s.push (.semaYield :: as)).semaUp k) := by
    intro as k
    refine semaUp ?_ ?_ k
    · exact hs.congr rfl fun t _ => hpush _ t
    · simp [Kernel.push, Kernel.modify, Kernel.cur]
  have hdown : a.yields = false → ∀ k, PreemptInv (s.semaDown k) := by
    intro hy k
    unfold Kernel.semaDown
    split
    · exact threadBlock _ _
    · exact of_same hs (htop hy) rfl rfl fun _ _ => rfl
  cases a with
  | semaDown k | semaRetest k =>
    cases he
    exact hdown rfl k
  | semaTryDown k =>
    cases he
    unfold Kernel.semaTryDown
    split
    · exact of_top hs (htop rfl)
    · exact of_same hs (htop rfl) rfl rfl fun _ _ => rfl
  | semaUp k =>
    cases he
    exact hup [] k
  | semaYield | yield =>
    cases he
    exact threadYield s
  | lockAcquire l =>
    simp only [Kernel.exec, Kernel.lockAcquire] at he
    split at he
    · cases he
    · cases he
      refine acquireDown fun hv => ?_
      rw [sema_donate] at hv
      -- a lock that can be taken has no holder, so that nothing has been donated
      have hdon : s.donate l = s.modify s.current fun th => { th with waitingLock := some l } := by
        simp [Kernel.donate, Kernel.modify, hl l hv]
      have hp : ∀ t, ((s.donate l).thread t).priority = (s.thread t).priority := by
        rw [hdon]
        exact priority_modify s s.current fun _ => rfl
      have hcur : (s.donate l).cur.priority = s.cur.priority := by
        rw [Kernel.cur, (SameCode.donate s l).current]
        exact hp s.current
      have hready : (s.donate l).readyList = s.readyList := by
        rw [hdon]
        rfl
      exact takeLock (hs.congr hready fun t _ => hp t)
        ((htop rfl).congr hready hcur fun t _ => hp t) l
  | lockRetest l =>
    cases he
    exact acquireDown fun _ => takeLock hs (htop rfl) l
  | lockTryAcquire l =>
    simp only [Kernel.exec, Kernel.lockTryAcquire] at he
    split at he
    · cases he
    · split at he
      · cases he
        exact of_top hs (htop rfl)
      · rename_i hv
        cases he
        rw [Kernel.semaTryDown, if_neg hv]
        exact of_same hs (htop rfl) rfl (hpush _ _) fun t _ => hpush _ t
  | tryHolder l | releaseHolder l =>
    cases he
    exact of_same hs (htop rfl) rfl (hpush _ _) fun t _ => hpush _ t
  | tryInsert l =>
    cases he
    have hp : ∀ t, ((s.tryInsert l).thread t).priority = (s.thread t).priority := by
      apply priority_modify
      exact fun _ => rfl
    exact of_same hs (htop rfl) rfl (hp s.current) fun t _ => hp t
  | lockRelease l =>
    simp only [Kernel.exec, Kernel.lockRelease] at he
    split at he
    · cases he
      have hp := priority_modify (s.modifyLock l fun lk =>
        { lk with owners := lk.owners.erase s.current }) s.current
        (f := fun th => { th with locks := th.locks.erase l }) fun _ => rfl
      refine of_same hs (htop rfl) rfl ?_ fun t _ => ?_
      · exact (priority_push _ _ _).trans (hp s.current)
      · exact (priority_push _ _ _).trans (hp t)
    · cases he
  | releaseDonated l =>
    cases he
    have hp : ∀ t, ((s.releaseDonated l).thread t).priority = (s.thread t).priority := by
      intro t
      refine (priority_push _ _ t).trans ?_
      apply priority_modify
      exact fun _ => rfl
    exact of_same hs (htop rfl) rfl (hp s.current) fun t _ => hp t
  | releaseSema l =>
    cases he
    exact hup [.releasePriority] (.lock l)
  | releasePriority =>
    cases he
    exact threadSetPriority hs (htop rfl) hc _
  | setPriority n =>
    cases he
    exact threadSetPriority hs (htop rfl) hc n
  | recheck old =>
    cases he
    exact PreemptInv.recheck hs (Or.inr (htop rfl))
  | takeTid p =>
    cases he
    have hp : ∀ t, t ≠ s.nextTid → ((s.takeTid p).thread t).priority = (s.thread t).priority := by
      intro t htn
      by_cases htc : t = s.current
      · subst htc
        simp [Kernel.takeTid, Kernel.push, Kernel.modify, htn]
      · simp [Kernel.takeTid, Kernel.push, Kernel.modify, htn, htc]
    exact of_same hs (htop rfl) rfl (hp s.current hne) fun t hmem =>
      hp t fun heq => hn (heq ▸ hmem)
  | startThread t =>
    cases he
    refine threadUnblock (s := s.push [.yieldIfHigher t]) ?_ (Or.inr ?_)
    · exact of_same hs (htop rfl) rfl (hpush _ _) fun t _ => hpush _ t
    · simp [Kernel.push, Kernel.modify, Kernel.cur, Action.yieldsTo]
  | yieldIfHigher t =>
    simp only [Kernel.exec, Kernel.yieldIfHigher, Option.some.injEq] at he
    subst he
    split
    · exact threadYield s
    · rename_i hle
      refine of_top hs fun u hu => ?_
      rcases ht u hu with h | h
      · exact h
      · obtain rfl : t = u := by simpa [Action.yieldsTo] using h
        exact Int.not_lt.mp hle
  | condWait c l =>
    simp only [Kernel.exec, Kernel.condWait] at he
    split at he
    · cases he
      exact of_same hs (htop rfl) rfl (hpush _ _) fun t _ => hpush _ t
    · cases he
  | condSignal c l =>
    simp only [Kernel.exec, Kernel.condSignal] at he
    split at he
    · split at he
      · cases he
        exact of_top hs (htop rfl)
      · rename_i w rest _
        cases he
        refine semaUp ?_ ?_ (.cond w.1)
        · exact hs.congr rfl fun t _ => hpush [.semaYield] t
        · simp [Kernel.push, Kernel.modify, Kernel.cur]
    · cases he
  | sleep n =>
    simp only [Kernel.exec, Kernel.timerSleep, Option.some.injEq] at he
    subst he
    split
    · exact of_top hs (htop rfl)
    · exact threadBlock _ _
  | block | idle =>
    cases he
    exact threadBlock s _
  | exit =>
    cases he
    exact threadExit s
  | unblock t => exact absurd rfl (ha t)
  | kernelThread u =>
    cases he
    exact of_top hs (htop rfl)
  | slept | unblocked =>
    cases he
    exact of_top hs (htop rfl)

private theorem wakeSleepers_true (s : Kernel) (ts : List Tid) :
    (s.wakeSleepers ts true).2 = true := by
  induction ts generalizing s with
  | nil => rfl
  | cons t rest ih =>
    rw [Kernel.wakeSleepers]
    split
    · rfl
    · exact ih _

/-- Sleepers of no greater priority change nothing; for one of greater priority the interrupted
thread yields. -/
theorem PreemptInv.wakeSleepers {s : Kernel} (h : PreemptInv s) (ts : List Tid) (y : Bool) :
    (s.wakeSleepers ts y).2 = true ∨ PreemptInv (s.wakeSleepers ts y).1 := by
  induction ts generalizing s y with
  | nil => exact Or.inr h
  | cons t rest ih =>
    rw [Kernel.wakeSleepers]
    split
    · exact Or.inr h
    · by_cases hlt : s.cur.priority < (s.thread t).priority
      · refine Or.inl ?_
        rw [decide_eq_true hlt, Bool.or_true]
        exact wakeSleepers_true _ _
      · have hs : PreemptInv { s with sleepingList := rest } := ⟨h.sorted, h.top⟩
        exact ih (hs.threadUnblock (Or.inl (Int.not_lt.mp hlt))) _

private theorem PreemptInv.timerInterrupt {s : Kernel} (h : PreemptInv s) :
    PreemptInv s.timerInterrupt := by
  let e : Kernel := { s with ticks := s.ticks + 1, threadTicks := s.threadTicks + 1 }
  have he : PreemptInv e := ⟨h.sorted, h.top⟩
  have hw := he.wakeSleepers e.sleepingList (decide (TIME_SLICE ≤ e.threadTicks))
  unfold Kernel.timerInterrupt
  dsimp only
  split
  · exact threadYield _
  · rename_i hy
    exact hw.resolve_left hy

/-- Nobody calls `thread_unblock` itself. -/
def NoUnblock (s : Kernel) (i : Input) : Prop := i = .run → s.unblocks = none

instance (s : Kernel) (i : Input) : Decidable (NoUnblock s i) := by
  unfold NoUnblock
  infer_instance

private theorem NoUnblock.unblocksBlocked {s : Kernel} {i : Input} (h : NoUnblock s i) :
    UnblocksBlocked s i := by
  intro hi t ht
  rw [h hi] at ht
  cases ht

private theorem PreemptInv.step {s s' : Kernel} {i : Input} (h : PreemptInv s) (hi : SystemInv s)
    (hl : LockInv s) (hu : NoUnblock s i) (hs : step s i = some s') : PreemptInv s' := by
  cases i with
  | op o =>
    obtain ⟨ho, rfl⟩ := step_op hs
    have hp := priority_push s o.code
    refine of_same h.sorted (fun t ht => ?_) rfl (hp s.current) fun t _ => hp t
    refine (h.top t ht).resolve_right fun hy => ?_
    rw [ho.1] at hy
    cases hy
  | run =>
    obtain ⟨a, as, m, hr, -, hex⟩ := hi.ran hs
    have hp : ∀ t, (s.pop.thread t).priority = (s.thread t).priority :=
      priority_modify s s.current fun _ => rfl
    have hsorted : s.pop.ReadySorted := h.sorted.congr rfl fun t _ => hp t
    refine PreemptInv.exec hsorted (fun t ht => ?_) (hi.queues.right.offLists .ready) ?_ hr.ne (fun l hv => ?_) (fun t hat => ?_) hex
    · rw [hp, show s.pop.cur.priority = s.cur.priority from hp s.current]
      refine (h.top t ht).imp_right fun hy => ?_
      rw [hr.head] at hy
      exact hy
    · have hdead : s.place s.nextTid = none := by
        simp [Kernel.place, (hi.queues.fresh s.nextTid le_rfl).1]
      exact hi.queues.placed.notMem hdead .ready
    · obtain ⟨p, hc⟩ := hl.custody l
      have hfree := hc.free_of_value hv
      rw [hfree] at hc
      exact hc.holder
    · have hnone := hu rfl
      simp [Kernel.unblocks, hr.head, hat] at hnone
  | tick =>
    obtain ⟨-, rfl⟩ := step_tick hs
    exact h.timerInterrupt

/-- In every state that threads and the timer reach, `ready_list` is sorted by priority, and the
running thread has at least the priority of every thread on it unless it has woken a thread and is
about to yield. -/
theorem strict_priority {v : Nat → Nat} {is : List Input} {s : Kernel}
    (hr : run step (threadStart v) is = some s) (hu : Along step NoUnblock (threadStart v) is) :
    s.ReadySorted ∧ (s.aboutToYield = false → s.Top) := by
  have hinv : SystemInv s ∧ LockInv s ∧ PreemptInv s := by
    refine run_preserves_along (P := fun s => SystemInv s ∧ LockInv s ∧ PreemptInv s) ?_
      ⟨systemInv_threadStart v, lockInv_threadStart v, List.Pairwise.nil, by rintro t ⟨⟩⟩ hu hr
    rintro s i s' ⟨hi, hl, hp⟩ hn hs
    exact ⟨hi.step hn.unblocksBlocked hs, hl.step hi hs, hp.step hi hl hn hs⟩
  obtain ⟨-, -, hp⟩ := hinv
  refine ⟨hp.sorted, fun hy t ht => (hp.top t ht).resolve_right fun hyt => ?_⟩
  unfold Kernel.aboutToYield at hy
  cases hhead : s.cur.todo.head? with
  | none =>
    rw [hhead] at hyt
    cases hyt
  | some a =>
    rw [hhead, Option.any_some] at hy hyt
    rw [Action.yields_of_yieldsTo hyt] at hy
    cases hy

/-- The new thread runs and its creator, which has a smaller priority, is ready. -/
theorem strict_priority_created : ∃ s,
    run step (threadStart fun _ => 0) (.op (.threadCreate 40) :: List.replicate 11 .run) = some s ∧
      s.readyList = [mainThread] ∧ s.ReadySorted ∧ s.Top := by
  obtain ⟨s, hs, hp⟩ := run_reaches step (threadStart fun _ => 0)
    (.op (.threadCreate 40) :: List.replicate 11 .run)
    (fun s => decide (s.readyList = [mainThread] ∧ s.aboutToYield = false)) (by decide +kernel)
  obtain ⟨hready, hy⟩ := of_decide_eq_true hp
  obtain ⟨hsorted, htop⟩ := strict_priority hs (by decide +kernel)
  exact ⟨s, hs, hready, hsorted, htop hy⟩

/-- A thread of priority 40 is created and the tick arrives before its creator has looked at its
priority. -/
def tickInCreate : List Input :=
  .op (.threadCreate 40) :: List.replicate 9 .run ++ [.tick]

/-- When the interrupt returns, the running thread has a smaller priority than a ready one. -/
theorem created_thread_waits_for_tick : ∃ s,
    run step (threadStart fun _ => 0) tickInCreate = some s ∧ s.current = mainThread ∧
      s.readyList = [3] ∧ s.cur.priority < (s.thread 3).priority := by
  obtain ⟨s, hs, hp⟩ := run_reaches step (threadStart fun _ => 0) tickInCreate
    (fun s => decide (s.current = mainThread ∧ s.readyList = [3] ∧
      s.cur.priority < (s.thread 3).priority)) (by decide +kernel)
  exact ⟨s, hs, of_decide_eq_true hp⟩

end Pintos.Threads

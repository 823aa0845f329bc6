import Pintos.Base.RunQueue
import Pintos.Lib.List
import Pintos.Threads.Queues

/-!
# Threads of equal priority take turns

The run queue is kept by ordered insertion and sorted before each dispatch, while donations raise
the priorities of queued threads. Threads of equal priority are dispatched in the order in which
they were enqueued.
Source `threads/thread.c:304–339, 395–411, 641–711`, `threads/synch.c:238–260`,
`lib/kernel/list.c:357–459`.
-/

namespace Pintos.Threads

open Base
open RunQueue (Event apply Unraised)

namespace Kernel

/-- `thread_priority_greater`, `threads/thread.c:117–124`, as the list functions call it. -/
def greater (s : Kernel) (a b : Tid) : Bool := decide (s.Greater a b)

/-- `next_thread_to_run`, `threads/thread.c:641–649`, and the run queue it leaves. -/
def nextThreadToRun (s : Kernel) : Tid × List Tid :=
  match Lib.listSort s.greater s.readyList with
  | [] => (s.idleThread, [])
  | next :: rest => (next, rest)

/-- `schedule`, `threads/thread.c:693–711`. -/
def dispatch (s : Kernel) : Kernel :=
  { s with readyList := s.nextThreadToRun.2 }.switchTo s.nextThreadToRun.1

/-- The running thread gives up the processor, blocked or dying. -/
def leave (s : Kernel) (status : Status) : Kernel :=
  s.modify s.current fun th => { th with status := status }

/-- The thread that yields joins the run queue, `threads/thread.c:404–407`. -/
def requeue (s : Kernel) : Kernel :=
  { s.modify s.current fun th => { th with status := .ready } with
    readyList :=
      if s.current = s.idleThread then s.readyList
      else Lib.listInsertOrdered s.greater s.current s.readyList }

private theorem inOrder_greater (s : Kernel) (a b : Tid) :
    Lib.InOrder s.greater a b ↔ s.AtLeast a b := by
  rw [Lib.InOrder, greater, decide_eq_false_iff_not]
  exact Int.not_lt

instance (s : Kernel) : IsTrans Tid (Lib.InOrder s.greater) where
  trans a b c hab hbc := by
    rw [inOrder_greater] at hab hbc ⊢
    exact Int.le_trans hbc hab

instance (s : Kernel) : Std.Total (Lib.InOrder s.greater) where
  total a b := by
    rw [inOrder_greater, inOrder_greater]
    exact Int.le_total _ _

/-- The stable sort of the run queue is what `list_sort` computes. -/
theorem listSort_greater (s : Kernel) (ts : List Tid) :
    Lib.listSort s.greater ts = s.sorted ts := by
  rw [Lib.listSort_eq, sorted]
  congr 1
  funext a b
  exact propext (s.inOrder_greater a b)

private theorem listInsertOrdered_greater (s : Kernel) (t : Tid) (ts : List Tid) :
    Lib.listInsertOrdered s.greater t ts = s.insertOrdered t ts := by
  rw [Lib.listInsertOrdered_eq, insertOrdered]
  congr 1
  funext a b
  rw [greater, decide_eq_true_eq]

/-- The idle thread is next if the run queue is empty, otherwise the first thread of the sorted
run queue is. -/
theorem nextThreadToRun_cases (s : Kernel) :
    (s.readyList = [] ∧ s.sorted s.readyList = [] ∧ s.nextThreadToRun = (s.idleThread, [])) ∨
      ∃ next rest, s.readyList ≠ [] ∧ s.sorted s.readyList = next :: rest ∧
        s.nextThreadToRun = (next, rest) := by
  have hlength : (s.sorted s.readyList).length = s.readyList.length :=
    List.length_insertionSort s.AtLeast s.readyList
  unfold nextThreadToRun
  rw [listSort_greater]
  cases h : s.sorted s.readyList with
  | nil =>
    rw [h] at hlength
    exact Or.inl ⟨List.length_eq_zero_iff.mp hlength.symm, rfl, rfl⟩
  | cons next rest =>
    rw [h] at hlength
    exact Or.inr ⟨next, rest, List.length_pos_iff.mp (by rw [← hlength]; simp), rfl, rfl⟩

private theorem dispatch_eq_schedule (s : Kernel) : s.dispatch = s.schedule := by
  unfold dispatch schedule
  rcases s.nextThreadToRun_cases with ⟨hempty, hsort, hnext⟩ | ⟨next, rest, -, hsort, hnext⟩
  · rw [hnext, hsort]
    dsimp only
    rw [← hempty]
  · rw [hnext, hsort]

private theorem dispatch_requeue (s : Kernel) : s.requeue.dispatch = s.threadYield := by
  rw [dispatch_eq_schedule, requeue, listInsertOrdered_greater]
  rfl

end Kernel

/-- What changes the run queue or the priorities of threads: `thread_unblock`, `thread_yield`, a
dispatch after the running thread has blocked or is dying, a donation to any thread, and the
running thread setting its own priority. -/
inductive SchedOp
  | unblock (t : Tid)
  | yield
  | dispatch (status : Status)
  | donate (t : Tid) (priority : Int)
  | setPriority (priority : Int)
  deriving DecidableEq, Repr

/-- One operation of the scheduler. -/
def schedStep (s : Kernel) : SchedOp → Option Kernel
  | .unblock t => if (s.thread t).status = .blocked then some (s.threadUnblock t) else none
  | .yield => some s.requeue.dispatch
  | .dispatch status =>
    if status = .blocked ∨ status = .dying then some (s.leave status).dispatch else none
  | .donate t p => some (s.raiseThread t p)
  | .setPriority p => some (s.modify s.current fun th => { th with priority := p })

namespace Kernel

/-- The thread that a dispatch takes off the run queue, if it takes one. -/
def dispatchEvents (s : Kernel) : List (Event Tid Int) :=
  if s.readyList = [] then [] else [.dispatched s.nextThreadToRun.1]

/-- What an operation does to the run queue. A donation is an event of the queue if it changes the
priority of a queued thread. -/
def schedEvents (s : Kernel) : SchedOp → List (Event Tid Int)
  | .unblock t => [.enqueued t (s.thread t).priority]
  | .yield =>
    (if s.current = s.idleThread then [] else [.enqueued s.current s.cur.priority]) ++
      s.requeue.dispatchEvents
  | .dispatch status => (s.leave status).dispatchEvents
  | .donate t p =>
    if t ∈ s.readyList ∧ (s.thread t).priority < p then [.raised t p] else []
  | .setPriority _ => []

/-- The run queue with the priorities of the threads on it. -/
def runQueue (s : Kernel) : List (Tid × Int) :=
  s.readyList.map fun t => (t, (s.thread t).priority)

private theorem fst_runQueue (s : Kernel) : s.runQueue.map Prod.fst = s.readyList := by
  simp [runQueue, Function.comp_def]

/-- The priorities of queued threads are all that the run queue depends on. -/
theorem runQueue_congr {s s' : Kernel} (h : s'.readyList = s.readyList)
    (hp : ∀ t ∈ s.readyList, (s'.thread t).priority = (s.thread t).priority) :
    s'.runQueue = s.runQueue := by
  unfold runQueue
  rw [h]
  apply List.map_congr_left
  intro t ht
  rw [hp t ht]

private theorem sort_runQueue (s : Kernel) :
    RunQueue.sort s.runQueue =
      (s.sorted s.readyList).map fun t => (t, (s.thread t).priority) := by
  unfold RunQueue.sort runQueue sorted
  symm
  apply List.map_insertionSort
  intro a _ b _
  exact Iff.rfl

private theorem enqueue_runQueue (s : Kernel) (t : Tid) :
    RunQueue.enqueue s.runQueue (t, (s.thread t).priority) =
      (s.insertOrdered t s.readyList).map fun u => (u, (s.thread u).priority) := by
  unfold RunQueue.enqueue runQueue insertOrdered
  symm
  apply List.map_orderedInsert
  · intro a _
    exact Iff.rfl
  · intro a _
    exact Iff.rfl

/-- No thread is on the run queue twice, the threads on it are ready, and the running thread is
not. -/
structure RunQueueOk (s : Kernel) : Prop where
  nodup : s.readyList.Nodup
  ready : ∀ t ∈ s.readyList, (s.thread t).status = .ready
  running : s.cur.status = .running

private theorem priority_switchTo (s : Kernel) (next t : Tid) :
    ((s.switchTo next).thread t).priority = (s.thread t).priority :=
  (Moved.switchTo s next).priority t

private theorem status_switchTo (s : Kernel) (next t : Tid) :
    ((s.switchTo next).thread t).status =
      if t = next then .running else (s.thread t).status := by
  by_cases ht : t = next
  · simp [switchTo, modify, ht]
  · simp [switchTo, modify, ht]

private theorem apply_dispatchEvents (s : Kernel) :
    run apply s.runQueue s.dispatchEvents = some s.dispatch.runQueue := by
  have hafter : s.dispatch.runQueue =
      s.nextThreadToRun.2.map fun t => (t, (s.thread t).priority) := by
    unfold runQueue dispatch
    simp only [priority_switchTo]
    rfl
  rw [hafter, dispatchEvents]
  rcases s.nextThreadToRun_cases with ⟨hempty, -, hnext⟩ | ⟨next, rest, hne, hsort, hnext⟩
  · rw [if_pos hempty, hnext, runQueue, hempty]
    rfl
  · have hfirst := s.sort_runQueue
    rw [hsort, List.map_cons] at hfirst
    rw [if_neg hne, hnext, run_cons, apply, hfirst]
    simp

private theorem runQueueOk_dispatch {s : Kernel} (hnodup : s.readyList.Nodup)
    (hready : ∀ t ∈ s.readyList, (s.thread t).status = .ready) : s.dispatch.RunQueueOk := by
  unfold dispatch
  rcases s.nextThreadToRun_cases with ⟨-, -, hnext⟩ | ⟨next, rest, -, hsort, hnext⟩
  · rw [hnext]
    exact ⟨List.nodup_nil, fun t ht => absurd ht List.not_mem_nil, by simp [cur, switchTo, modify]⟩
  · rw [hnext]
    have hperm : (next :: rest).Perm s.readyList := hsort ▸ List.perm_insertionSort _ _
    have hs := List.nodup_cons.mp (hperm.nodup_iff.mpr hnodup)
    refine ⟨hs.2, ?_, by simp [cur, switchTo, modify]⟩
    intro t ht
    have hne : t ≠ next := fun h => hs.1 (h ▸ ht)
    rw [status_switchTo, if_neg hne]
    exact hready t (hperm.subset (List.mem_cons_of_mem next ht))

variable {s s' : Kernel}

private theorem RunQueueOk.current_notMem (h : s.RunQueueOk) : s.current ∉ s.readyList := by
  intro hmem
  have hrunning := h.running
  rw [cur, h.ready s.current hmem] at hrunning
  cases hrunning

private theorem apply_enqueued (s : Kernel) {t : Tid} (ht : t ∉ s.readyList) :
    apply s.runQueue (.enqueued t (s.thread t).priority) =
      some ((s.insertOrdered t s.readyList).map fun u => (u, (s.thread u).priority)) := by
  rw [apply, fst_runQueue, if_neg ht, enqueue_runQueue]

private theorem mem_insertOrdered {t u : Tid} {ts : List Tid} :
    u ∈ s.insertOrdered t ts ↔ u = t ∨ u ∈ ts := List.mem_orderedInsert _

private theorem nodup_insertOrdered {t : Tid} {ts : List Tid} (hts : ts.Nodup) (ht : t ∉ ts) :
    (s.insertOrdered t ts).Nodup :=
  (List.perm_orderedInsert _ t ts).nodup_iff.mpr (List.nodup_cons.mpr ⟨ht, hts⟩)

/-- `thread_unblock` of a blocked thread puts it on the run queue. -/
theorem apply_unblock (h : s.RunQueueOk) {t : Tid} (ht : (s.thread t).status = .blocked) :
    run apply s.runQueue (s.schedEvents (.unblock t)) = some (s.threadUnblock t).runQueue ∧
      (s.threadUnblock t).RunQueueOk := by
  have hmem : t ∉ s.readyList := fun hmem => by
    rw [h.ready t hmem] at ht
    cases ht
  have hcur : s.current ≠ t := fun hcur => by
    have hrunning := h.running
    rw [cur, hcur, ht] at hrunning
    cases hrunning
  constructor
  · rw [schedEvents, run_cons, s.apply_enqueued hmem]
    have hp : ∀ u, ((s.threadUnblock t).thread u).priority = (s.thread u).priority :=
      (Moved.threadUnblock s t).priority
    unfold runQueue
    simp only [hp]
    rfl
  · refine ⟨nodup_insertOrdered h.nodup hmem, ?_, ?_⟩
    · intro u hu
      by_cases hut : u = t
      · simp [threadUnblock, modify, hut]
      · rcases mem_insertOrdered.mp hu with rfl | hu
        · exact absurd rfl hut
        · simpa [threadUnblock, modify, hut] using h.ready u hu
    · simpa [cur, threadUnblock, modify, hcur] using h.running

private theorem leave_runQueue (status : Status) : (s.leave status).runQueue = s.runQueue := by
  refine runQueue_congr ?_ fun t _ => ?_
  · rfl
  · exact (Moved.modifyStatus s s.current status).priority t

/-- The thread that yields is put on the run queue, the idle thread is not. -/
theorem apply_requeue (h : s.RunQueueOk) :
    run apply s.runQueue
        (if s.current = s.idleThread then [] else [.enqueued s.current s.cur.priority]) =
      some s.requeue.runQueue ∧
      s.requeue.readyList.Nodup ∧
      ∀ t ∈ s.requeue.readyList, (s.requeue.thread t).status = .ready := by
  have hp : ∀ u, (s.requeue.thread u).priority = (s.thread u).priority :=
    (Moved.modifyStatus s s.current .ready).priority
  have hqueue : s.requeue.readyList = if s.current = s.idleThread then s.readyList
      else s.insertOrdered s.current s.readyList := by
    rw [requeue, listInsertOrdered_greater]
  have hstatus : ∀ t, t ∈ s.readyList ∨ t = s.current → (s.requeue.thread t).status = .ready := by
    intro t ht
    by_cases hcur : t = s.current
    · simp [requeue, modify, hcur]
    · simpa [requeue, modify, hcur] using h.ready t (ht.resolve_right hcur)
  split
  · next hidle =>
    rw [if_pos hidle] at hqueue
    refine ⟨?_, hqueue ▸ h.nodup, ?_⟩
    · rw [runQueue_congr hqueue fun t _ => hp t]
      rfl
    · intro t ht
      exact hstatus t (Or.inl (hqueue ▸ ht))
  · next hidle =>
    rw [if_neg hidle] at hqueue
    refine ⟨?_, hqueue ▸ nodup_insertOrdered h.nodup h.current_notMem, ?_⟩
    · rw [run_cons, cur, s.apply_enqueued h.current_notMem]
      unfold runQueue
      simp only [hp, hqueue]
      rfl
    · intro t ht
      rw [hqueue, mem_insertOrdered] at ht
      exact hstatus t ht.symm

private theorem priority_raiseThread (s : Kernel) (t u : Tid) (p : Int) :
    ((s.raiseThread t p).thread u).priority =
      if u = t then max (s.thread t).priority p else (s.thread u).priority := by
  by_cases hu : u = t
  · simp [raiseThread, modify, hu]
  · simp [raiseThread, modify, hu]

/-- A donation raises the priority of a queued thread or leaves the run queue alone. -/
theorem apply_donate (s : Kernel) (t : Tid) (p : Int) :
    run apply s.runQueue (s.schedEvents (.donate t p)) = some (s.raiseThread t p).runQueue := by
  rw [schedEvents]
  split
  · next h =>
    have hless : ∀ x ∈ s.runQueue, x.1 = t → x.2 < p := by
      intro x hx ht
      obtain ⟨u, -, rfl⟩ := List.mem_map.mp hx
      have hut : u = t := ht
      exact hut ▸ h.2
    rw [run_cons, apply, if_pos hless, RunQueue.raise, runQueue, List.map_map]
    simp only [Option.bind_some, run_nil, Option.some.injEq, runQueue]
    apply List.map_congr_left
    intro u _
    rw [priority_raiseThread]
    by_cases hu : u = t
    · simp [hu, max_eq_right h.2.le]
    · simp [hu]
  · next h =>
    rw [run_nil, Option.some.injEq]
    symm
    refine runQueue_congr ?_ fun u hu => ?_
    · rfl
    · rw [priority_raiseThread]
      split
      · next hut =>
        have hle : p ≤ (s.thread t).priority := not_lt.mp fun hlt => h ⟨hut ▸ hu, hlt⟩
        rw [hut, max_eq_left hle]
      · rfl

/-- A change that leaves the run queue and the status of threads alone leaves the run queue in
order. -/
theorem RunQueueOk.modify (h : s.RunQueueOk) (t : Tid) {f : Thread → Thread}
    (hf : ∀ th, (f th).status = th.status) : (s.modify t f).RunQueueOk := by
  have hstatus : ∀ u, ((s.modify t f).thread u).status = (s.thread u).status := by
    intro u
    by_cases hu : u = t
    · simp [Kernel.modify, hu, hf]
    · simp [Kernel.modify, hu]
  refine ⟨h.nodup, fun u hu => (hstatus u).trans (h.ready u hu), ?_⟩
  exact (hstatus s.current).trans h.running

end Kernel

open Kernel

variable {s s' : Kernel}

private theorem apply_schedEvents {o : SchedOp} (h : s.RunQueueOk)
    (hstep : schedStep s o = some s') :
    run apply s.runQueue (s.schedEvents o) = some s'.runQueue ∧ s'.RunQueueOk := by
  cases o with
  | unblock t =>
    rw [schedStep] at hstep
    split at hstep
    · next ht =>
      cases hstep
      exact apply_unblock h ht
    · cases hstep
  | yield =>
    cases hstep
    obtain ⟨hrequeue, hnodup, hready⟩ := apply_requeue h
    refine ⟨?_, runQueueOk_dispatch hnodup hready⟩
    rw [schedEvents, run_append, hrequeue]
    exact s.requeue.apply_dispatchEvents
  | dispatch status =>
    rw [schedStep] at hstep
    split at hstep
    · cases hstep
      rw [schedEvents, ← leave_runQueue status]
      refine ⟨(s.leave status).apply_dispatchEvents, runQueueOk_dispatch h.nodup ?_⟩
      intro t ht
      have hcur : t ≠ s.current := fun hcur => h.current_notMem (hcur ▸ ht)
      simpa [leave, Kernel.modify, hcur] using h.ready t ht
    · cases hstep
  | donate t p =>
    cases hstep
    exact ⟨s.apply_donate t p, h.modify t fun _ => rfl⟩
  | setPriority p =>
    cases hstep
    refine ⟨?_, h.modify s.current fun _ => rfl⟩
    rw [schedEvents, run_nil, Option.some.injEq]
    symm
    refine runQueue_congr ?_ fun t ht => ?_
    · rfl
    · have hcur : t ≠ s.current := fun hcur => h.current_notMem (hcur ▸ ht)
      simp [Kernel.modify, hcur]

/-- The run queue is in order wherever the queues of the kernel are right. -/
theorem runQueueOk_of_queueInv (h : QueueInv (some s.current) s) : s.RunQueueOk where
  nodup := h.placed.nodup .ready
  ready t ht := by
    have hplace := (h.placed.mem_iff .ready t).mp ht
    rw [place] at hplace
    split at hplace
    · next hready => exact hready
    · exact absurd hplace (QueueInv.waitPlace_ne_ready _)
    · cases hplace
  running := (h.running s.current).mpr rfl

/-- The events of any sequence of operations are those of a run queue with priorities. -/
theorem apply_schedTrace {os : List SchedOp} (h : s.RunQueueOk)
    (hrun : run schedStep s os = some s') :
    run apply s.runQueue (trace schedStep schedEvents s os) = some s'.runQueue := by
  have hend : run apply s.runQueue ([] ++ trace schedStep schedEvents s os) = some s'.runQueue ∧
      s'.RunQueueOk := by
    refine @run_preserves_trace _ _ _ _ (fun _ _ => True) _
      (fun u es => run apply s.runQueue es = some u.runQueue ∧ u.RunQueueOk) ?_ s s' os []
      ⟨rfl, h⟩ (along_of_forall schedStep s fun _ _ => True.intro) hrun
    rintro u o v es ⟨hes, hok⟩ - hstep
    obtain ⟨hevents, hok'⟩ := apply_schedEvents hok hstep
    exact ⟨by rw [run_append, hes]; exact hevents, hok'⟩
  exact hend.1

/-- In every sequence of wake-ups, yields, dispatches and donations, of two threads that are on
the run queue together with equal priorities, which do not change while they are there, the one
that was enqueued first is dispatched first. -/
theorem equals_take_turns (s s' : Kernel) (os : List SchedOp) (hs : s.RunQueueOk)
    (hrun : run schedStep s os = some s') (a b : Tid) (p : Int)
    (before between after rest : List (Event Tid Int))
    (hlog : trace schedStep schedEvents s os =
      before ++ .enqueued a p :: between ++ .enqueued b p :: after ++ .dispatched b :: rest)
    (hqueued : .dispatched a ∉ between) (ha : Unraised a (between ++ after))
    (hb : Unraised b after) : .dispatched a ∈ after := by
  have hevents := apply_schedTrace hs hrun
  have hsplit : trace schedStep schedEvents s os =
      (before ++ .enqueued a p :: between ++ .enqueued b p :: after ++ [.dispatched b]) ++ rest := by
    rw [hlog, List.append_assoc _ [_] rest, List.singleton_append]
  rw [hsplit] at hevents
  obtain ⟨queue, hqueue, -⟩ := run_append_some hevents
  refine RunQueue.dispatched_in_order ?_ hqueue hqueued ha hb
  rw [fst_runQueue]
  exact hs.nodup

/-- The initial thread runs, and three threads are blocked, one of them with less priority. -/
def threeBlocked : Kernel :=
  { threadStart fun _ => 0 with
    thread := fun t =>
      if t = 1 then initThread .running PRI_DEFAULT []
      else if t = 5 then initThread .blocked PRI_MIN []
      else initThread .blocked PRI_DEFAULT [] }

/-- Threads 3 and 4 take turns around thread 5, which receives a donation while it is queued. -/
theorem equals_take_turns_threeBlocked :
    trace schedStep schedEvents threeBlocked
        [.unblock 3, .unblock 5, .donate 5 40, .unblock 4,
          .dispatch .blocked, .dispatch .blocked, .dispatch .blocked] =
      [.enqueued 3 31, .enqueued 5 0, .raised 5 40, .enqueued 4 31,
        .dispatched 5, .dispatched 3, .dispatched 4] ∧
      .dispatched 3 ∈ ([.dispatched 5, .dispatched 3] : List (Event Tid Int)) := by
  have hlog : trace schedStep schedEvents threeBlocked
        [.unblock 3, .unblock 5, .donate 5 40, .unblock 4,
          .dispatch .blocked, .dispatch .blocked, .dispatch .blocked] =
      [.enqueued 3 31, .enqueued 5 0, .raised 5 40, .enqueued 4 31,
        .dispatched 5, .dispatched 3, .dispatched 4] := by decide +kernel
  have hok : threeBlocked.RunQueueOk := ⟨by decide, by decide, by decide⟩
  obtain ⟨s', hrun, -⟩ := run_reaches schedStep threeBlocked
    [.unblock 3, .unblock 5, .donate 5 40, .unblock 4,
      .dispatch .blocked, .dispatch .blocked, .dispatch .blocked] (fun _ => true)
    (by decide +kernel)
  refine ⟨hlog, ?_⟩
  exact equals_take_turns threeBlocked s' _ hok hrun 3 4 31 []
    [.enqueued 5 0, .raised 5 40] [.dispatched 5, .dispatched 3] [] hlog (by decide)
    (.of_notMem (by simp)) (.of_notMem (by simp))

end Pintos.Threads

import Pintos.Base.DeadlineQueue
import Pintos.Threads.Aside
import Pintos.Threads.Queues

/-!
# Sleeping threads

`sleeping_list` is a queue of deadlines: `timer_sleep` adds the running thread behind the sleepers
of the same wake-up tick, and `timer_interrupt` takes off what is due. Every sleeper is woken by
the interrupt that reaches its tick, once, and in the order of going to sleep. Ticks are unbounded
integers, which agree with `int64_t` as long as no sum reaches `2 ^ 63`.
Source `devices/timer.c:92–105, 177–203`, `threads/thread.c:479–488`,
`lib/kernel/list.c:442–459`.
-/

namespace Pintos.Threads

open Base Base.DeadlineQueue

variable {s s' : Kernel} {es : List (Event Tid)}

namespace Kernel

/-- The sleeping threads with the ticks at which they are to be woken. -/
def sleepers (s : Kernel) : List (Int × Tid) :=
  s.sleepingList.map fun t => ((s.thread t).wakeupTick, t)

/-- The threads that go to sleep and those that the timer unblocks in a step, in order. -/
def timerEvents (s : Kernel) : Input → List (Event Tid)
  | .op _ => []
  | .run =>
    match s.cur.todo with
    | .sleep n :: _ => if n ≤ 0 then [] else [.added s.current (s.ticks + n)]
    | _ => []
  | .tick => if s.interruptible then expiries (s.ticks + 1) s.sleepers else []

end Kernel

/-! ## The loop of `timer_interrupt` -/

private theorem wakeupTick_threadUnblock (s : Kernel) (t u : Tid) :
    ((s.threadUnblock t).thread u).wakeupTick = (s.thread u).wakeupTick := by
  rw [(Moved.threadUnblock s t).thread u]

/-- The loop calls `thread_unblock` for the threads whose tick has come, in the order of the
list, and leaves the others. -/
theorem wakeSleepers_eq (s : Kernel) (ts : List Tid) (hts : s.sleepingList = ts) (y : Bool) :
    (s.wakeSleepers ts y).1 =
      (ts.takeWhile fun t => (s.thread t).wakeupTick ≤ s.ticks).foldl Kernel.threadUnblock
        { s with sleepingList := ts.dropWhile fun t => (s.thread t).wakeupTick ≤ s.ticks } := by
  induction ts generalizing s y with
  | nil =>
    simp only [Kernel.wakeSleepers, List.takeWhile_nil, List.dropWhile_nil, List.foldl_nil]
    rw [← hts]
  | cons t rest ih =>
    rw [Kernel.wakeSleepers]
    split
    · next hlt =>
      have hnot : ¬ (s.thread t).wakeupTick ≤ s.ticks := Int.not_le.mpr hlt
      simp only [List.takeWhile_cons, List.dropWhile_cons, hnot, decide_false, Bool.false_eq_true,
        if_false, List.foldl_nil]
      rw [← hts]
    · next hle =>
      have hdue : (s.thread t).wakeupTick ≤ s.ticks := Int.not_lt.mp hle
      rw [ih _ rfl]
      simp only [List.takeWhile_cons, List.dropWhile_cons, hdue, decide_true, if_true,
        List.foldl_cons, wakeupTick_threadUnblock]
      rfl

/-! ## What leaves the sleepers alone -/

/-- The list of sleeping threads and the clock. -/
def Kernel.timer (s : Kernel) : List Tid × Int := (s.sleepingList, s.ticks)

private theorem Kernel.timer_eq (s : Kernel) : s.timer = (s.aside.1, s.aside.2.1) := rfl

private theorem timer_foldl_threadUnblock (s : Kernel) (ts : List Tid) :
    (ts.foldl Kernel.threadUnblock s).timer = s.timer := by
  induction ts generalizing s with
  | nil => rfl
  | cons t ts ih =>
    rw [List.foldl_cons, ih]
    rfl

/-- Only `timer_sleep` touches the list of sleeping threads, and none the clock. -/
theorem timer_exec {a : Action} (ha : ∀ n, a ≠ .sleep n)
    (h : s.exec a = some s') : s'.timer = s.timer := by
  cases ha' : a.stepsAside with
  | false => rw [Kernel.timer_eq, Kernel.timer_eq, aside_exec ha' h]
  | true =>
    cases a with
    | sleep n => exact absurd rfl (ha n)
    | condWait c l =>
      rw [Kernel.timer_eq, aside_condWait h]
      rfl
    | condSignal c l =>
      rw [Kernel.timer_eq, aside_condSignal h]
      rfl
    | _ => cases ha'

/-! ## One step -/

private theorem sleepers_congr (hl : s'.sleepingList = s.sleepingList)
    (hw : ∀ t ∈ s.sleepingList, (s'.thread t).wakeupTick = (s.thread t).wakeupTick) :
    s'.sleepers = s.sleepers := by
  unfold Kernel.sleepers
  rw [hl]
  apply List.map_congr_left
  intro t ht
  rw [hw t ht]

private theorem sleepers_modify (s : Kernel) (t : Tid) {f : Thread → Thread}
    (hf : ∀ th, (f th).wakeupTick = th.wakeupTick) : (s.modify t f).sleepers = s.sleepers := by
  exact @sleepers_congr s (s.modify t f) rfl fun u _ =>
    Kernel.field_modify Thread.wakeupTick (hf _) u

/-- The sleeping threads are neither running nor being made. -/
def Kernel.SleepersAway (s : Kernel) : Prop := ∀ t ∈ s.sleepingList, t ≠ s.current ∧ t ≠ s.nextTid

private theorem QueueInv.sleepersAway (h : QueueInv (some s.current) s) : s.SleepersAway := by
  intro t ht
  have hb := (h.right.sleeping t ht).1
  constructor
  · rintro rfl
    exact h.right.offLists .sleeping ht
  · rintro rfl
    rw [(h.fresh s.nextTid le_rfl).1] at hb
    cases hb

private theorem sleepers_exec {a : Action} (h : s.SleepersAway)
    (ha : ∀ n, a ≠ .sleep n) (he : s.exec a = some s') :
    s'.sleepers = s.sleepers ∧ s'.ticks = s.ticks := by
  have htimer := timer_exec ha he
  have hlist : s'.sleepingList = s.sleepingList := congrArg Prod.fst htimer
  refine ⟨sleepers_congr hlist fun t ht => ?_, congrArg Prod.snd htimer⟩
  obtain ⟨m, hm, hmoved⟩ := Kernel.exec_effect he
  obtain ⟨hcur, hnext⟩ := h t ht
  obtain ⟨p, d, hkept⟩ := (OthersKept.effect hm).thread t hcur (Or.inl hnext)
  rw [hmoved.thread t, hkept]

private theorem sleepers_timerSleep (h : s.SleepersAway) {n : Int} (hn : 0 < n) :
    (s.timerSleep n).sleepers = add s.sleepers (s.ticks + n, s.current) ∧
      (s.timerSleep n).ticks = s.ticks := by
  let m : Kernel := s.modify s.current fun th => { th with wakeupTick := s.ticks + n }
  have hself : (m.thread s.current).wakeupTick = s.ticks + n := by simp [m, Kernel.modify]
  have hother : ∀ t ∈ s.sleepingList, (m.thread t).wakeupTick = (s.thread t).wakeupTick := by
    intro t ht
    simp [m, Kernel.modify, (h t ht).1]
  let e : Kernel := { m with
    sleepingList := m.sleepingList.orderedInsert
      (fun a b => (m.thread a).wakeupTick < (m.thread b).wakeupTick) m.current }
  have hsleep : s.timerSleep n = e.threadBlock .slept := by
    rw [Kernel.timerSleep, if_neg (Int.not_le.mpr hn)]
  have hwake : ∀ t, ((e.threadBlock .slept).thread t).wakeupTick = (m.thread t).wakeupTick := by
    intro t
    rw [(Moved.threadBlock e .slept).thread t]
    by_cases ht : t = s.current
    · subst ht
      simp [Kernel.push, Kernel.modify, e, m]
    · simp [Kernel.push, Kernel.modify, e, m, ht]
  have hlist : (e.threadBlock .slept).sleepingList = s.sleepingList.orderedInsert
      (fun a b => (m.thread a).wakeupTick < (m.thread b).wakeupTick) s.current :=
    congrArg Prod.fst (aside_threadBlock e .slept)
  have hticks : (e.threadBlock .slept).ticks = s.ticks :=
    congrArg (fun x => x.2.1) (aside_threadBlock e .slept)
  refine ⟨?_, hsleep ▸ hticks⟩
  rw [hsleep, Kernel.sleepers, hlist]
  simp only [hwake]
  rw [List.map_orderedInsert _ (fun x y : Int × Tid => x.1 < y.1)
    (fun t => ((m.thread t).wakeupTick, t)) _ _ (fun _ _ => Iff.rfl) (fun _ _ => Iff.rfl), hself]
  unfold add Kernel.sleepers
  congr 1
  apply List.map_congr_left
  intro t ht
  rw [hother t ht]

private theorem timer_timerInterrupt (s : Kernel) : s.timerInterrupt.timer =
    (s.sleepingList.dropWhile fun t => (s.thread t).wakeupTick ≤ s.ticks + 1, s.ticks + 1) := by
  let e : Kernel := { s with ticks := s.ticks + 1, threadTicks := s.threadTicks + 1 }
  let r := e.wakeSleepers e.sleepingList (decide (TIME_SLICE ≤ e.threadTicks))
  have htimer : s.timerInterrupt.timer = r.1.timer := by
    unfold Kernel.timerInterrupt
    dsimp only
    split
    · rw [Kernel.timer_eq, aside_threadYield]
      rfl
    · rfl
  rw [htimer]
  change (e.wakeSleepers e.sleepingList _).1.timer = _
  rw [wakeSleepers_eq e e.sleepingList rfl, timer_foldl_threadUnblock]
  rfl

/-- The timer interrupt takes the threads that are due off the list. -/
theorem sleepers_timerInterrupt (s : Kernel) :
    s.timerInterrupt.sleepers = rest (s.ticks + 1) s.sleepers ∧
      s.timerInterrupt.ticks = s.ticks + 1 := by
  constructor
  · have hlist : s.timerInterrupt.sleepingList =
        s.sleepingList.dropWhile fun t => (s.thread t).wakeupTick ≤ s.ticks + 1 :=
      congrArg Prod.fst (timer_timerInterrupt s)
    have hwake : ∀ t, (s.timerInterrupt.thread t).wakeupTick = (s.thread t).wakeupTick := by
      intro t
      rw [(Moved.timerInterrupt s).thread t]
    unfold rest Kernel.sleepers
    rw [hlist, List.dropWhile_map]
    simp only [hwake]
    rfl
  · exact congrArg Prod.snd (timer_timerInterrupt s)

/-- The interrupt calls `thread_unblock` for the threads that the log names, in that order, and for
nobody else; then it returns or yields. -/
private theorem timerInterrupt_unblocks (hs : step s .tick = some s') :
    ∃ w, w = (expiredAt s'.ticks (s.timerEvents .tick)).foldl Kernel.threadUnblock
        { s with ticks := s'.ticks, threadTicks := s.threadTicks + 1,
                 sleepingList := s'.sleepingList } ∧
      (s' = w ∨ s' = w.threadYield) := by
  simp only [step, Option.ite_none_right_eq_some, Option.some.injEq] at hs
  obtain ⟨hint, rfl⟩ := hs
  let e : Kernel := { s with ticks := s.ticks + 1, threadTicks := s.threadTicks + 1 }
  let r := e.wakeSleepers e.sleepingList (decide (TIME_SLICE ≤ e.threadTicks))
  have hend : s.timerInterrupt = if r.2 then r.1.threadYield else r.1 := rfl
  have hlog : expiredAt (s.ticks + 1) (s.timerEvents .tick) =
      e.sleepingList.takeWhile fun t => (e.thread t).wakeupTick ≤ e.ticks := by
    rw [Kernel.timerEvents, if_pos hint, expiredAt_expiries, if_pos rfl, due, Kernel.sleepers,
      List.takeWhile_map, List.map_map]
    exact List.map_id _
  have hleft : s.timerInterrupt.sleepingList =
      e.sleepingList.dropWhile fun t => (e.thread t).wakeupTick ≤ e.ticks :=
    congrArg Prod.fst (timer_timerInterrupt s)
  refine ⟨r.1, ?_, ?_⟩
  · rw [(sleepers_timerInterrupt s).2, hlog, hleft]
    exact wakeSleepers_eq e e.sleepingList rfl _
  · rw [hend]
    cases r.2 with
    | false => exact Or.inl rfl
    | true => exact Or.inr rfl

/-! ## Every run -/

/-- The queues are right, and the sleeping list holds exactly who has still to be woken. -/
structure SleepersOk (s : Kernel) (es : List (Event Tid)) : Prop where
  queues : QueueInv (some s.current) s
  exact : Exact s.ticks s.sleepers es

private theorem SleepersOk.step {i : Input}
    (h : SleepersOk s es) (hu : UnblocksBlocked s i) (hs : Threads.step s i = some s') :
    SleepersOk s' (es ++ s.timerEvents i) := by
  refine ⟨h.queues.step hu hs, ?_⟩
  cases i with
  | op o =>
    simp only [Threads.step, Option.ite_none_right_eq_some, Option.some.injEq] at hs
    have hsame : (s.push o.code).sleepers = s.sleepers := sleepers_modify s s.current fun _ => rfl
    rw [← hs.2, Kernel.timerEvents, List.append_nil, hsame]
    exact h.exact
  | run =>
    obtain ⟨a, rest, htodo, hs⟩ := step_run hs
    have hsame : s.pop.sleepers = s.sleepers := sleepers_modify s s.current fun _ => rfl
    have haway : s.pop.SleepersAway := h.queues.sleepersAway
    by_cases hsleep : ∃ n, a = .sleep n ∧ 0 < n
    · obtain ⟨n, rfl, hn⟩ := hsleep
      cases hs
      obtain ⟨hsleepers, hticks⟩ := sleepers_timerSleep haway hn
      rw [hsleepers, hticks, hsame]
      simp only [Kernel.timerEvents, htodo]
      rw [if_neg (Int.not_le.mpr hn)]
      exact h.exact.add (Int.lt_add_of_pos_right _ hn) _
    · have hnone : s.timerEvents .run = [] := by
        simp only [Kernel.timerEvents, htodo]
        split
        · next n _ heq =>
          cases heq
          rw [if_pos]
          by_contra hn
          exact hsleep ⟨n, rfl, Int.not_le.mp hn⟩
        · rfl
      have hkept : s'.sleepers = s.pop.sleepers ∧ s'.ticks = s.pop.ticks := by
        by_cases ha : ∃ n, a = .sleep n
        · -- a call of `timer_sleep` with nothing to wait for returns at once
          obtain ⟨n, rfl⟩ := ha
          have hn : n ≤ 0 := by
            by_contra hn
            exact hsleep ⟨n, rfl, Int.not_le.mp hn⟩
          simp only [Kernel.exec, Kernel.timerSleep, if_pos hn, Option.some.injEq] at hs
          rw [← hs]
          exact ⟨rfl, rfl⟩
        · exact sleepers_exec haway (fun n hn => ha ⟨n, hn⟩) hs
      rw [hnone, List.append_nil, hkept.1, hkept.2, hsame]
      exact h.exact
  | tick =>
    simp only [Threads.step, Option.ite_none_right_eq_some, Option.some.injEq] at hs
    obtain ⟨hint, rfl⟩ := hs
    obtain ⟨hsleepers, hticks⟩ := sleepers_timerInterrupt s
    rw [Kernel.timerEvents, if_pos hint, hsleepers, hticks]
    exact h.exact.advance

private theorem sleepersOk_threadStart (v : Nat → Nat) : SleepersOk (threadStart v) [] :=
  ⟨queueInv_threadStart v, Exact.nil 0⟩

private theorem sleepersOk_run {v : Nat → Nat} {is : List Input}
    (hr : run step (threadStart v) is = some s)
    (hu : Along step UnblocksBlocked (threadStart v) is) :
    SleepersOk s (trace step Kernel.timerEvents (threadStart v) is) := by
  have hend := run_preserves_trace (fun _ _ _ _ h hc hs => SleepersOk.step h hc hs)
    (sleepersOk_threadStart v) hu hr
  rwa [List.nil_append] at hend

/-- The interrupt leaves on the list the threads whose tick is to come. -/
theorem SleepersOk.mem_sleepingList (h : SleepersOk s es)
    {t : Tid} (ht : t ∈ s.sleepingList) :
    t ∈ s.timerInterrupt.sleepingList ↔ s.timerInterrupt.ticks < (s.thread t).wakeupTick := by
  obtain ⟨hsleepers, hticks⟩ := sleepers_timerInterrupt s
  have hwake : (s.timerInterrupt.thread t).wakeupTick = (s.thread t).wakeupTick := by
    rw [(Moved.timerInterrupt s).thread t]
  have hmem : ((s.thread t).wakeupTick, t) ∈ s.sleepers := List.mem_map_of_mem ht
  rw [hticks]
  constructor
  · intro hon
    have hrest : ((s.timerInterrupt.thread t).wakeupTick, t) ∈ s.timerInterrupt.sleepers :=
      List.mem_map_of_mem hon
    rw [hsleepers, hwake] at hrest
    exact lt_of_mem_rest h.exact.sorted hrest
  · intro hlt
    rw [← due_append_rest (s.ticks + 1) s.sleepers, ← hsleepers] at hmem
    rcases List.mem_append.mp hmem with hdue | hrest
    · exact absurd (le_of_mem_due hdue) (Int.not_le.mpr hlt)
    · obtain ⟨u, hu, heq⟩ := List.mem_map.mp hrest
      have hut : u = t := congrArg Prod.snd heq
      exact hut ▸ hu

private theorem SleepersOk.unblocked (h : SleepersOk s es)
    (hs : Threads.step s .tick = some s') {t : Tid} (ht : t ∈ s.sleepingList)
    (hoff : t ∉ s'.sleepingList) : (s'.thread t).status ≠ .blocked := by
  have hq := h.queues.step (i := .tick) (fun hi => by cases hi) hs
  simp only [Threads.step, Option.ite_none_right_eq_some, Option.some.injEq] at hs
  obtain ⟨-, rfl⟩ := hs
  intro hb
  apply hoff
  apply (hq.placed.mem_iff .sleeping t).mpr
  have hplace := (h.queues.placed.mem_iff .sleeping t).mp ht
  rw [Kernel.place, (h.queues.right.sleeping t ht).1] at hplace
  rw [Kernel.place, hb, (Moved.timerInterrupt s).todo]
  exact hplace

private theorem withDeadline_sleepers (s : Kernel) (tick : Int) :
    withDeadline tick s.sleepers = s.sleepingList.filter fun t => (s.thread t).wakeupTick = tick := by
  unfold withDeadline Kernel.sleepers
  rw [List.filter_map, List.map_map]
  exact List.map_id _

/-- In every run: the sleeping list is sorted and nobody on it is overdue; the threads that the
interrupt of a tick has unblocked are those that went to sleep until that tick, once each and in
that order; those still to come are on the list in that order; and the threads that an interrupt
logs are the ones on which its loop calls `thread_unblock`. -/
theorem sleepers_wake_on_time {v : Nat → Nat} {is : List Input} {s : Kernel}
    (hr : run step (threadStart v) is = some s)
    (hu : Along step UnblocksBlocked (threadStart v) is) :
    (s.sleepingList.Pairwise fun a b => (s.thread a).wakeupTick ≤ (s.thread b).wakeupTick) ∧
    (∀ t ∈ s.sleepingList, s.ticks < (s.thread t).wakeupTick ∧ (s.thread t).status = .blocked) ∧
    (∀ tick, tick ≤ s.ticks →
      expiredAt tick (trace step Kernel.timerEvents (threadStart v) is) =
        addedFor tick (trace step Kernel.timerEvents (threadStart v) is)) ∧
    (∀ tick, s.ticks < tick →
      expiredAt tick (trace step Kernel.timerEvents (threadStart v) is) = [] ∧
      (s.sleepingList.filter fun t => (s.thread t).wakeupTick = tick) =
        addedFor tick (trace step Kernel.timerEvents (threadStart v) is)) ∧
    ∀ s', step s .tick = some s' →
      (∃ w, w = (expiredAt s'.ticks (s.timerEvents .tick)).foldl Kernel.threadUnblock
          { s with ticks := s'.ticks, threadTicks := s.threadTicks + 1,
                   sleepingList := s'.sleepingList } ∧
        (s' = w ∨ s' = w.threadYield)) ∧
      ∀ t ∈ s.sleepingList,
        (t ∈ s'.sleepingList ↔ s'.ticks < (s.thread t).wakeupTick) ∧
        (t ∈ s'.sleepingList ∨ (s'.thread t).status ≠ .blocked) := by
  have h := sleepersOk_run hr hu
  refine ⟨?_, ?_, h.exact.past, ?_, ?_⟩
  · have hsorted := h.exact.sorted
    rw [Kernel.sleepers, List.pairwise_map] at hsorted
    exact hsorted
  · intro t ht
    exact ⟨h.exact.future _ (List.mem_map_of_mem ht), (h.queues.right.sleeping t ht).1⟩
  · intro tick ht
    obtain ⟨hexp, hadd⟩ := h.exact.pending tick ht
    rw [withDeadline_sleepers] at hadd
    exact ⟨hexp, hadd⟩
  · intro s' hs
    refine ⟨timerInterrupt_unblocks hs, fun t ht => ⟨?_, ?_⟩⟩
    · simp only [step, Option.ite_none_right_eq_some, Option.some.injEq] at hs
      obtain ⟨-, rfl⟩ := hs
      exact h.mem_sleepingList ht
    · by_cases hon : t ∈ s'.sleepingList
      · exact Or.inl hon
      · exact Or.inr (h.unblocked hs ht hon)

/-- The main thread sleeps for two ticks. -/
theorem sleepers_wake_on_time_main : ∃ s,
    run step (threadStart fun _ => 0) [.op (.timerSleep 2), .run, .tick, .tick] = some s ∧
      expiredAt 2 (trace step Kernel.timerEvents (threadStart fun _ => 0)
        [.op (.timerSleep 2), .run, .tick, .tick]) = [mainThread] := by
  have hr : run step (threadStart fun _ => 0) [.op (.timerSleep 2), .run, .tick, .tick] =
    some _ := rfl
  have h := sleepers_wake_on_time hr (by decide +kernel)
  exact ⟨_, hr, (h.2.2.1 2 (by decide)).trans (by decide +kernel)⟩

end Pintos.Threads

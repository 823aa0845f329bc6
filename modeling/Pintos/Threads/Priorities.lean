import Pintos.Threads.LoadAvg

/-!
# Priorities after a tick

`thread_tick` stores the priorities before it updates `load_avg` and `recent_cpu`. When it returns
they follow from the numbers at every tick but that of a full second, and at that one too as long
as every thread is so far above `PRI_MAX` that the clamp hides the update.
Source `threads/thread.c:84–115, 174–195`.
-/

namespace Pintos.Threads.Mlfqs

open Pintos.Base

variable {s : State} {t : Tid} {th : Thread} {cpu : Int}

/-! ## `thread_foreach` -/

private theorem foldl_update_not_mem (func : Tid → Thread → Thread) (ts : List Tid)
    (th : Tid → Thread) (ht : t ∉ ts) :
    ts.foldl (fun th t => Function.update th t (func t (th t))) th t = th t := by
  induction ts generalizing th with
  | nil => rfl
  | cons u ts ih =>
    rw [List.mem_cons, not_or] at ht
    rw [List.foldl_cons, ih _ ht.2, Function.update_of_ne ht.1]

private theorem thread_threadForeach (hs : s.allList.Nodup) (func : Tid → Thread → Thread)
    (ht : t ∈ s.allList) : (s.threadForeach func).thread t = func t (s.thread t) := by
  unfold State.threadForeach
  dsimp only
  generalize s.thread = th
  induction hl : s.allList generalizing th s with
  | nil =>
    rw [hl] at ht
    cases ht
  | cons u ts ih =>
    rw [hl, List.mem_cons] at ht
    rw [hl, List.nodup_cons] at hs
    rw [List.foldl_cons]
    by_cases htu : t = u
    · subst htu
      rw [foldl_update_not_mem func ts _ hs.1, Function.update_self]
    · have hmem : t ∈ ts := ht.resolve_left htu
      have hrest := ih (s := { s with allList := ts }) hs.2 hmem
        (Function.update th u (func u (th u))) rfl
      rw [hrest, Function.update_of_ne htu]

/-! ## The formula -/

/-- The priority that the formula gives for a thread's own numbers. -/
def Thread.formula (th : Thread) : Int :=
  max PRI_MIN (min PRI_MAX (fpToIntNearest
    (int32 (int32 (intToFp PRI_MAX - th.recentCpu.tdiv 4) - int32 (intToFp th.nice * 2)))))

private theorem newPriority_eq_formula (th : Thread) :
    newPriority th.recentCpu th.nice = th.formula := by
  unfold newPriority Thread.formula
  have hle : PRI_MIN ≤ PRI_MAX := by decide
  generalize fpToIntNearest _ = x
  dsimp only
  split_ifs <;> omega

/-- Priorities follow from the numbers: every thread but the idle thread has the priority that
the formula gives. -/
def Consistent (s : State) : Prop :=
  ∀ t ∈ s.allList, t ≠ s.idleThread → (s.thread t).priority = (s.thread t).formula

/-- Numbers of a thread that is not below `PRI_MAX` before the clamp. -/
structure Capped (nice cpu : Int) : Prop where
  nice_ge : -20 ≤ nice
  nice_le : nice ≤ 0
  cpu_ge : -2 ^ 30 ≤ cpu
  cpu_le : cpu ≤ -8 * nice * F

/-- A state in which the next tick leaves every thread but the idle thread at `PRI_MAX`: nothing
overflows, and no thread's `recent_cpu`, with the tick it is going to be charged, outweighs what its
`nice` value adds. -/
structure Saturated (s : State) : Prop where
  load_ge : 0 ≤ s.loadAvg
  load_le : s.loadAvg ≤ 1310 * F
  ready_le : s.readyThreads ≤ 1310
  capped : ∀ t ∈ s.allList, t ≠ s.idleThread →
    Capped (s.thread t).nice ((s.thread t).recentCpu + if t = s.current then F else 0)

private theorem formula_eq_max (hn : -20 ≤ th.nice) (hn' : th.nice ≤ 0)
    (hc : -2 ^ 30 - 2 ^ 20 ≤ th.recentCpu) (hc' : th.recentCpu ≤ -8 * th.nice * F) :
    th.formula = PRI_MAX := by
  rw [F_eq] at hc'
  have hq := Int.mul_tdiv_add_tmod th.recentCpu 4
  have hrem := Int.tmod_lt_of_pos th.recentCpu (show (0 : Int) < 4 by decide)
  have hrem' := Int.lt_tmod_of_pos th.recentCpu (show (0 : Int) < 4 by decide)
  have hmax : intToFp PRI_MAX = 63 * 16384 := by decide
  have hnice : intToFp th.nice = th.nice * 16384 := by
    rw [intToFp, F_eq, int32_of_fits (by unfold FitsInt32; omega)]
  unfold Thread.formula
  rw [hmax, hnice, int32_of_fits (x := 63 * 16384 - _) (by unfold FitsInt32; omega),
    int32_of_fits (x := th.nice * 16384 * 2) (by unfold FitsInt32; omega),
    int32_of_fits (by unfold FitsInt32; omega)]
  generalize hx : 63 * 16384 - th.recentCpu.tdiv 4 - th.nice * 16384 * 2 = x
  have hlow : 63 * 16384 ≤ x := by omega
  have hround : 63 ≤ fpToIntNearest x := by
    rw [fpToIntNearest, if_pos (by omega), F_eq, int32_of_fits (by unfold FitsInt32; omega),
      Int.tdiv_eq_ediv_of_nonneg (by omega)]
    omega
  have hmin : PRI_MIN = 0 := rfl
  have hpri : PRI_MAX = 63 := rfl
  omega

private theorem mulFp_of_nonneg {coeff : Int} (hc : 0 ≤ coeff) (hc' : coeff ≤ F)
    (hx : 0 ≤ cpu) : 0 ≤ mulFp coeff cpu ∧ mulFp coeff cpu ≤ cpu := by
  have hprod : 0 ≤ coeff * cpu := Int.mul_nonneg hc hx
  have hle : coeff * cpu ≤ F * cpu := Int.mul_le_mul_of_nonneg_right hc' hx
  rw [mulFp, Int.tdiv_eq_ediv_of_nonneg hprod]
  rw [F_eq] at hle ⊢
  omega

private theorem mulFp_of_nonpos {coeff : Int} (hc : 0 ≤ coeff) (hc' : coeff ≤ F)
    (hx : cpu ≤ 0) : cpu ≤ mulFp coeff cpu ∧ mulFp coeff cpu ≤ 0 := by
  have hneg := mulFp_of_nonneg hc hc' (show 0 ≤ -cpu by omega)
  have heq : mulFp coeff (-cpu) = -mulFp coeff cpu := by
    rw [mulFp, mulFp, Int.mul_neg, Int.neg_tdiv]
  omega

/-- The share of `recent_cpu` that a second leaves is between zero and one. -/
private theorem coeff_between {load : Int} (hl : 0 ≤ load) (hl' : load ≤ 1310 * F) :
    0 ≤ int32 (divFp (int32 (load * 2)) (int32 (int32 (load * 2) + intToFp 1))) ∧
      int32 (divFp (int32 (load * 2)) (int32 (int32 (load * 2) + intToFp 1))) ≤ F := by
  have hone : intToFp 1 = 16384 := by decide
  rw [F_eq] at hl' ⊢
  rw [int32_of_fits (x := load * 2) (by unfold FitsInt32; omega), hone,
    int32_of_fits (x := load * 2 + 16384) (by unfold FitsInt32; omega), divFp, F_eq,
    Int.tdiv_eq_ediv_of_nonneg (by omega)]
  have hlow : 0 ≤ load * 2 * 16384 / (load * 2 + 16384) :=
    Int.ediv_nonneg (by omega) (by omega)
  have hhigh : load * 2 * 16384 / (load * 2 + 16384) ≤ 16384 :=
    Int.ediv_le_of_le_mul (by omega) (by omega)
  rw [int32_of_fits (by unfold FitsInt32; omega)]
  exact ⟨hlow, hhigh⟩

/-- The update of the second leaves a thread at `PRI_MAX` there. -/
private theorem Capped.formula_updateRecentCpu {load : Int} {idle : Tid}
    (h : Capped th.nice th.recentCpu) (hl : 0 ≤ load) (hl' : load ≤ 1310 * F) :
    (updateRecentCpu load idle t th).formula = PRI_MAX := by
  obtain ⟨hn, hn', hc, hc'⟩ := h
  unfold updateRecentCpu
  split
  · exact formula_eq_max hn hn' (by omega) hc'
  · dsimp only
    obtain ⟨hlow, hhigh⟩ := coeff_between hl hl'
    generalize int32 (divFp _ _) = coeff at hlow hhigh
    have hshare : min th.recentCpu 0 ≤ mulFp coeff th.recentCpu ∧
        mulFp coeff th.recentCpu ≤ max th.recentCpu 0 := by
      rcases Int.le_total 0 th.recentCpu with hx | hx
      · have := mulFp_of_nonneg hlow hhigh hx
        omega
      · have := mulFp_of_nonpos hlow hhigh hx
        omega
    rw [F_eq] at hc'
    have hnice : intToFp th.nice = th.nice * 16384 := by
      rw [intToFp, F_eq, int32_of_fits (by unfold FitsInt32; omega)]
    rw [hnice, int32_of_fits (by unfold FitsInt32; omega)]
    apply formula_eq_max
    · exact hn
    · exact hn'
    · dsimp only
      omega
    · rw [F_eq]
      dsimp only
      omega

private theorem priority_updateRecentCpu (load : Int) (idle t : Tid) (th : Thread) :
    (updateRecentCpu load idle t th).priority = th.priority := by
  unfold updateRecentCpu
  split <;> rfl

/-! ## The parts of a tick -/

/-- After the running thread has been charged, the priorities have been stored and the run queue
has been sorted. -/
private def stored (s : State) : State :=
  ((charge s).threadForeach (updateThreadPriority (charge s).idleThread)).sortReady

private theorem thread_stored (hs : s.allList.Nodup) (ht : t ∈ s.allList) :
    (stored s).thread t = updateThreadPriority s.idleThread t ((charge s).thread t) := by
  have hall := allList_charge s
  rw [← idleThread_charge]
  exact thread_threadForeach (hall ▸ hs) _ (hall ▸ ht)

private theorem priority_stored (hs : s.allList.Nodup) (ht : t ∈ s.allList)
    (hidle : t ≠ s.idleThread) :
    ((stored s).thread t).priority = ((stored s).thread t).formula := by
  rw [thread_stored hs ht, updateThreadPriority, if_neg hidle]
  exact newPriority_eq_formula _

/-- The charge for the tick is part of the condition, so it leaves the numbers capped. -/
private theorem capped_stored (hs : s.allList.Nodup) (ht : t ∈ s.allList)
    (hidle : t ≠ s.idleThread)
    (h : Capped (s.thread t).nice ((s.thread t).recentCpu + if t = s.current then F else 0)) :
    Capped ((stored s).thread t).nice ((stored s).thread t).recentCpu := by
  have hfit : FitsInt32 ((s.thread t).recentCpu + if t = s.current then F else 0) := by
    obtain ⟨hn, hn', hc, hc'⟩ := h
    rw [F_eq] at hc hc' ⊢
    unfold FitsInt32
    omega
  rw [thread_stored hs ht, updateThreadPriority, if_neg hidle]
  unfold charge
  by_cases hcur : t = s.current
  · rw [if_pos hcur] at h hfit
    rw [if_pos (hcur ▸ hidle)]
    subst hcur
    simpa [State.modify, addFpInt, int32_of_fits hfit] using h
  · rw [if_neg hcur, Int.add_zero] at h
    split
    · simpa [State.modify, hcur] using h
    · exact h

private theorem lists_stored (s : State) :
    (stored s).allList = s.allList ∧ (stored s).idleThread = s.idleThread ∧
      (stored s).ticks = s.ticks ∧ (stored s).loadAvg = s.loadAvg ∧
      (stored s).readyThreads = s.readyThreads := by
  have hlen : (stored s).readyList.length = (charge s).readyList.length :=
    List.length_insertionSort _ _
  have hready : (stored s).readyThreads = (charge s).readyThreads := by
    unfold State.readyThreads
    rw [hlen]
    rfl
  rw [hready]
  refine ⟨allList_charge s, idleThread_charge s, ticks_charge s, ?_⟩
  unfold stored charge
  split <;> exact ⟨rfl, rfl⟩

private theorem loadAvg_second (h : Saturated s) :
    0 ≤ (updateLoadAvg (stored s)).loadAvg ∧
      (updateLoadAvg (stored s)).loadAvg ≤ 1310 * F := by
  obtain ⟨-, -, -, hload, hready⟩ := lists_stored s
  have hl := h.load_ge
  have hl' := h.load_le
  have hr := h.ready_le
  rw [loadAvg_updateLoadAvg (hload ▸ hl) (hload ▸ hl') (hready ▸ hr), hload, hready]
  rw [F_eq] at hl' ⊢
  omega

private theorem consistent_everySecond (hs : s.allList.Nodup)
    (h : s.ticks % TIMER_FREQ ≠ 0 ∨ Saturated s) : Consistent (everySecond (stored s)) := by
  obtain ⟨hall, hidle, hticks, -⟩ := lists_stored s
  unfold everySecond
  split
  · next hsec =>
    rw [hticks] at hsec
    have hsat := h.resolve_left (not_not_intro hsec)
    obtain ⟨hlow, hhigh⟩ := loadAvg_second hsat
    intro t ht hne
    have hmem : t ∈ s.allList := hall ▸ ht
    have hne' : t ≠ s.idleThread := hidle ▸ hne
    have hcapped := capped_stored hs hmem hne' (hsat.capped t hmem hne')
    have hbefore : ((stored s).thread t).formula = PRI_MAX :=
      formula_eq_max hcapped.nice_ge hcapped.nice_le (by have := hcapped.cpu_ge; omega)
        hcapped.cpu_le
    have hthread := thread_threadForeach (s := updateLoadAvg (stored s)) (hall ▸ hs)
      (updateRecentCpu (updateLoadAvg (stored s)).loadAvg (updateLoadAvg (stored s)).idleThread) ht
    dsimp only
    rw [hthread, priority_updateRecentCpu]
    exact ((priority_stored hs hmem hne').trans hbefore).trans
      (hcapped.formula_updateRecentCpu hlow hhigh).symm
  · intro t ht hne
    exact priority_stored hs (hall ▸ ht) (hidle ▸ hne)

/-- In every reachable state, a timer tick at the end of a time slice leaves every thread with the
priority of the formula unless it is the tick of a full second; and at a full second too if the
threads are saturated. -/
theorem priorities_follow_formula {s s' : State} {os : List Op}
    (hr : run step threadStart os = some s) (ht : (s.ticks + 1) % TIME_SLICE = 0)
    (hs : step s .tick = some s')
    (hc : (s.ticks + 1) % TIMER_FREQ ≠ 0 ∨ Saturated s) : Consistent s' := by
  cases hs
  have hsat : (s.ticks + 1) % TIMER_FREQ ≠ 0 ∨ Saturated { s with ticks := s.ticks + 1 } :=
    hc.imp_right fun h => ⟨h.load_ge, h.load_le, h.ready_le, h.capped⟩
  have hslice : everySlice (charge { s with ticks := s.ticks + 1 }) =
      everySecond (stored { s with ticks := s.ticks + 1 }) := by
    rw [everySlice, if_pos (by rwa [ticks_charge])]
    rfl
  unfold threadTick
  dsimp only
  rw [hslice]
  exact consistent_everySecond (s := { s with ticks := s.ticks + 1 }) (listed_run hr).nodup hsat

/-- The main thread sets its `nice` value to -20 and runs for a second. -/
theorem priorities_follow_formula_second : ∃ s s',
    run step threadStart (.setNice (-20) :: List.replicate 99 .tick) = some s ∧
      (s.ticks + 1) % TIMER_FREQ = 0 ∧ Saturated s ∧ step s .tick = some s' ∧ Consistent s' := by
  obtain ⟨s, hs, h⟩ := run_reaches step threadStart (.setNice (-20) :: List.replicate 99 .tick)
    (fun s : State => decide (s.ticks = 99 ∧ s.loadAvg = 0 ∧ s.readyThreads = 1 ∧
      s.allList = [1, 2] ∧ s.idleThread = 2 ∧ s.current = 1 ∧ (s.thread 1).nice = -20 ∧
      (s.thread 1).recentCpu = 99 * F)) (by decide +kernel)
  obtain ⟨hticks, hload, hready, hall, hidle, hcur, hnice, hcpu⟩ := of_decide_eq_true h
  have hsat : Saturated s := by
    refine ⟨by rw [hload], by rw [hload]; decide, by omega, fun t ht hne => ?_⟩
    rw [hall, List.mem_pair] at ht
    obtain rfl : t = 1 := ht.resolve_right (hidle ▸ hne)
    rw [hnice, hcpu, hcur]
    constructor <;> decide
  refine ⟨s, _, hs, by rw [hticks]; decide, hsat, rfl, ?_⟩
  exact priorities_follow_formula hs (by rw [hticks]; decide) rfl (.inr hsat)

/-- After a second of running, the main thread has priority 38, where the formula gives 62. -/
theorem stale_priority_after_a_second : ∃ s s',
    run step threadStart (List.replicate 99 .tick) = some s ∧ (s.ticks + 1) % TIME_SLICE = 0 ∧
      step s .tick = some s' ∧ 1 ∈ s'.allList ∧ 1 ≠ s'.idleThread ∧
      (s'.thread 1).priority = 38 ∧ (s'.thread 1).formula = 62 := by
  obtain ⟨s, hs, h⟩ := run_reaches step threadStart (List.replicate 99 .tick)
    (fun s : State => decide ((s.ticks + 1) % TIME_SLICE = 0) && (step s .tick).any fun s' : State =>
      decide (1 ∈ s'.allList) && decide (1 ≠ s'.idleThread) &&
        decide ((s'.thread 1).priority = 38) && decide ((s'.thread 1).formula = 62))
    (by decide +kernel)
  simp only [Bool.and_eq_true, decide_eq_true_eq, Option.any_eq_true] at h
  obtain ⟨hslice, s', hs', ⟨⟨hmem, hidle⟩, hprio⟩, hformula⟩ := h
  exact ⟨s, s', hs, hslice, hs', hmem, hidle, hprio, hformula⟩

end Pintos.Threads.Mlfqs

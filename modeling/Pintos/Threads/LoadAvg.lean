import Mathlib.Algebra.Order.Field.Rat
import Mathlib.Data.List.Induction
import Mathlib.Tactic.Linarith
import Mathlib.Tactic.Ring
import Pintos.Threads.FixedPoint

/-!
# The load average against the exact recurrence

`update_load_avg` cuts off two quotients each second. The fixed-point value stays below the exact
one, by an error that each second shrinks by a sixtieth and grows by less than two units, and so
stays below 120 units however long the system runs. The same range keeps every 32-bit product from
overflowing.
Source `threads/thread.c:84–92, 510–515`, `threads/fixedpoint.h:6–16`.
-/

namespace Pintos.Threads.Mlfqs

open Pintos.Base

variable {rs : List Nat} {s s' : State}

namespace State

/-- The threads that `update_load_avg` counts, `threads/thread.c:88–90`. -/
def readyThreads (s : State) : Nat :=
  if s.current ≠ s.idleThread then s.readyList.length + 1 else s.readyList.length

end State

/-- `thread_get_load_avg`, `threads/thread.c:510–515`. -/
def threadGetLoadAvg (s : State) : Int := fpToIntNearest (int32 (s.loadAvg * 100))

/-- The values that `update_load_avg` computes in 32 bits or stores in an `fp64`. -/
def updateLoadAvgTerms (s : State) : List Int :=
  [s.readyThreads, s.loadAvg * 59, 60 * F, s.readyThreads * F,
    divFp (s.loadAvg * 59) (60 * F) + (s.readyThreads * F : Int).tdiv 60]

/-- The values that `thread_get_load_avg` computes in 32 bits. -/
def threadGetLoadAvgTerms (s : State) : List Int :=
  [s.loadAvg * 100, roundingTerm (s.loadAvg * 100)]

/-- The values that `load_avg` has had when `update_load_avg` has seen these numbers of threads,
one each second. What else the system does in the meantime is free. -/
inductive LoadHistory : List Nat → Int → Prop
  | start : LoadHistory [] 0
  | second {rs : List Nat} {s : State} (h : LoadHistory rs s.loadAvg) :
      LoadHistory (rs ++ [s.readyThreads]) (updateLoadAvg s).loadAvg

/-- The recurrence of the documentation, without rounding. -/
def exactLoadAvg (rs : List Nat) : ℚ :=
  rs.foldl (fun l (r : Nat) => 59 / 60 * l + r / 60) 0

private theorem exactLoadAvg_append (rs : List Nat) (r : Nat) :
    exactLoadAvg (rs ++ [r]) = 59 / 60 * exactLoadAvg rs + r / 60 := by
  simp only [exactLoadAvg, List.foldl_append, List.foldl_cons, List.foldl_nil]

/-! ## Every sequence of counts occurs -/

private theorem exists_readyThreads (l : Int) (r : Nat) :
    ∃ s : State, s.loadAvg = l ∧ s.readyThreads = r := by
  refine ⟨{ threadStart with
    loadAvg := l, current := threadStart.idleThread, readyList := List.replicate r 1 }, rfl, ?_⟩
  simp [State.readyThreads]

private theorem exists_loadHistory (rs : List Nat) : ∃ l, LoadHistory rs l := by
  induction rs using List.reverseRecOn with
  | nil => exact ⟨0, .start⟩
  | append_singleton rs r ih =>
    obtain ⟨l, hl⟩ := ih
    obtain ⟨s, rfl, rfl⟩ := exists_readyThreads l r
    exact ⟨_, .second hl⟩

/-! ## The range -/

/-- Nothing overflows while the load is that of at most 1310 threads. -/
theorem fits_updateLoadAvgTerms (hl : 0 ≤ s.loadAvg) (hu : s.loadAvg ≤ 1310 * F)
    (hr : s.readyThreads ≤ 1310) : ∀ x ∈ updateLoadAvgTerms s, FitsInt32 x := by
  have hdiv : divFp (s.loadAvg * 59) (60 * F) = s.loadAvg * 59 / 60 := by
    rw [divFp, Int.tdiv_eq_ediv_of_nonneg (by rw [F_eq]; omega), F_eq]
    omega
  have hquot : (s.readyThreads * F : Int).tdiv 60 = s.readyThreads * F / 60 :=
    Int.tdiv_eq_ediv_of_nonneg (by rw [F_eq]; omega)
  intro x hx
  simp only [updateLoadAvgTerms, List.mem_cons, List.not_mem_nil, or_false, hdiv, hquot] at hx
  rw [F_eq] at hx hu
  unfold FitsInt32
  omega

private theorem fits_threadGetLoadAvgTerms (hl : 0 ≤ s.loadAvg)
    (hu : s.loadAvg ≤ 1310 * F) : ∀ x ∈ threadGetLoadAvgTerms s, FitsInt32 x := by
  intro x hx
  simp only [threadGetLoadAvgTerms, List.mem_cons, List.not_mem_nil, or_false, roundingTerm] at hx
  rw [if_pos (by omega)] at hx
  rw [F_eq] at hx hu
  unfold FitsInt32
  omega

theorem loadAvg_updateLoadAvg (hl : 0 ≤ s.loadAvg) (hu : s.loadAvg ≤ 1310 * F)
    (hr : s.readyThreads ≤ 1310) :
    (updateLoadAvg s).loadAvg = s.loadAvg * 59 / 60 + s.readyThreads * F / 60 := by
  have hfits := fits_updateLoadAvgTerms hl hu hr
  simp only [updateLoadAvgTerms, List.mem_cons, List.not_mem_nil, or_false, forall_eq_or_imp,
    forall_eq] at hfits
  obtain ⟨-, hprod, hsixty, hready, hsum⟩ := hfits
  have hcount : (if s.current ≠ s.idleThread then (s.readyList.length : Int) + 1
      else s.readyList.length) = s.readyThreads := by
    unfold State.readyThreads
    split
    · push_cast
      rfl
    · rfl
  unfold updateLoadAvg intToFp
  dsimp only
  rw [hcount, int32_of_fits hprod, int32_of_fits hsixty, int32_of_fits hready, int32_of_fits hsum,
    divFp, Int.tdiv_eq_ediv_of_nonneg (by rw [F_eq]; omega),
    Int.tdiv_eq_ediv_of_nonneg (by rw [F_eq]; omega), F_eq]
  omega

/-! ## The error -/

/-- The fixed-point value lies below the exact one, by less than 120 units. -/
structure Close (rs : List Nat) (l : Int) : Prop where
  nonneg : 0 ≤ l
  le : l ≤ 1310 * F
  below : (l : ℚ) ≤ F * exactLoadAvg rs
  above : (F : ℚ) * exactLoadAvg rs < l + 120

/-- One update: the error shrinks by a sixtieth, and each quotient adds less than a unit. -/
theorem Close.second (h : Close rs s.loadAvg)
    (hr : s.readyThreads ≤ 1310) :
    Close (rs ++ [s.readyThreads]) (updateLoadAvg s).loadAvg := by
  have hl := h.nonneg
  have hu := h.le
  rw [loadAvg_updateLoadAvg hl hu hr]
  have hexact : (F : ℚ) * exactLoadAvg (rs ++ [s.readyThreads]) =
      59 / 60 * (F * exactLoadAvg rs) + s.readyThreads * F / 60 := by
    rw [exactLoadAvg_append]
    ring
  have hlow : 60 * (s.loadAvg * 59 / 60 + s.readyThreads * F / 60) ≤
      59 * s.loadAvg + s.readyThreads * F := by omega
  have hhigh : 59 * s.loadAvg + s.readyThreads * F <
      60 * (s.loadAvg * 59 / 60 + s.readyThreads * F / 60) + 120 := by omega
  constructor
  · rw [F_eq]
    omega
  · rw [F_eq] at hu ⊢
    omega
  · have hq : (60 : ℚ) * ((s.loadAvg * 59 / 60 + s.readyThreads * F / 60 : Int) : ℚ) ≤
        59 * s.loadAvg + s.readyThreads * F := by exact_mod_cast hlow
    rw [hexact]
    have hb := h.below
    linarith
  · have hq : (59 : ℚ) * s.loadAvg + s.readyThreads * F <
        60 * ((s.loadAvg * 59 / 60 + s.readyThreads * F / 60 : Int) : ℚ) + 120 := by
      exact_mod_cast hhigh
    rw [hexact]
    have ha := h.above
    linarith

private theorem LoadHistory.close {l : Int} (h : LoadHistory rs l)
    (hrs : ∀ r ∈ rs, r ≤ 1310) : Close rs l := by
  induction h with
  | start => exact ⟨le_refl _, by decide, by simp [exactLoadAvg], by simp [exactLoadAvg]⟩
  | second _ ih =>
    apply (ih ?_).second
    · exact hrs _ (List.mem_append_right _ (List.mem_singleton_self _))
    · exact fun r hr => hrs r (List.mem_append_left _ hr)

/-- `thread_get_load_avg` rounds the hundredfold to the nearest integer. -/
theorem threadGetLoadAvg_nearest (hl : 0 ≤ s.loadAvg) (hu : s.loadAvg ≤ 1310 * F) :
    |2 * (F * threadGetLoadAvg s - 100 * s.loadAvg)| ≤ F := by
  have hfits := fits_threadGetLoadAvgTerms hl hu
  simp only [threadGetLoadAvgTerms, List.mem_cons, List.not_mem_nil, or_false, forall_eq_or_imp,
    forall_eq] at hfits
  rw [threadGetLoadAvg, int32_of_fits hfits.1, Int.mul_comm 100]
  exact fpToIntNearest_nearest hfits.2

private theorem Close.threadGetLoadAvg (h : Close rs s.loadAvg) :
    |(threadGetLoadAvg s : ℚ) - 100 * exactLoadAvg rs| < 3 / 2 := by
  have hround := abs_le.mp (threadGetLoadAvg_nearest h.nonneg h.le)
  have hlow : (-F : ℚ) ≤ 2 * (F * Mlfqs.threadGetLoadAvg s - 100 * s.loadAvg) := by
    exact_mod_cast hround.1
  have hhigh : 2 * (F * Mlfqs.threadGetLoadAvg s - 100 * s.loadAvg) ≤ (F : ℚ) := by
    exact_mod_cast hround.2
  have hb := h.below
  have ha := h.above
  rw [F_eq] at hlow hhigh hb ha
  push_cast at hlow hhigh hb ha
  rw [abs_lt]
  constructor
  · linarith
  · linarith

/-- However many seconds have passed, with at most 1310 threads counted in each: no 32-bit value
in `update_load_avg` and `thread_get_load_avg` overflows, the load average is in range and less
than 120 units off, and the reported number less than one and a half. -/
theorem load_avg_accurate (rs : List Nat) (hrs : ∀ r ∈ rs, r ≤ 1310) :
    (∃ l, LoadHistory rs l) ∧ ∀ s : State, LoadHistory rs s.loadAvg →
      (s.readyThreads ≤ 1310 → ∀ x ∈ updateLoadAvgTerms s, FitsInt32 x) ∧
      (∀ x ∈ threadGetLoadAvgTerms s, FitsInt32 x) ∧
      0 ≤ s.loadAvg ∧ s.loadAvg ≤ 1310 * 2 ^ 14 ∧
      |(s.loadAvg : ℚ) - 2 ^ 14 * exactLoadAvg rs| < 120 ∧
      |(threadGetLoadAvg s : ℚ) - 100 * exactLoadAvg rs| < 3 / 2 := by
  refine ⟨exists_loadHistory rs, fun s hs => ?_⟩
  have h := hs.close hrs
  have hF : (F : ℚ) = 2 ^ 14 := by
    rw [F_eq]
    norm_num
  refine ⟨fits_updateLoadAvgTerms h.nonneg h.le, fits_threadGetLoadAvgTerms h.nonneg h.le,
    h.nonneg, h.le, ?_, h.threadGetLoadAvg⟩
  have hb := h.below
  have ha := h.above
  rw [← hF, abs_lt]
  constructor
  · linarith
  · linarith

/-- An hour with as many threads as the range allows. -/
theorem load_avg_accurate_hour :
    ∃ s : State, LoadHistory (List.replicate 3600 1310) s.loadAvg ∧
      |(s.loadAvg : ℚ) - 2 ^ 14 * exactLoadAvg (List.replicate 3600 1310)| < 120 ∧
      |(threadGetLoadAvg s : ℚ) - 100 * exactLoadAvg (List.replicate 3600 1310)| < 3 / 2 := by
  obtain ⟨⟨l, hl⟩, h⟩ := load_avg_accurate (List.replicate 3600 1310)
    fun r hr => (List.eq_of_mem_replicate hr).le
  exact ⟨{ threadStart with loadAvg := l }, hl, (h { threadStart with loadAvg := l } hl).2.2.2.2⟩

/-! ## Runs of the scheduler -/

@[simp] theorem loadAvg_schedule (s : State) : (schedule s).loadAvg = s.loadAvg := by
  unfold schedule
  split <;> rfl

@[simp] theorem loadAvg_threadYield (s : State) : (threadYield s).loadAvg = s.loadAvg := by
  simp [threadYield, State.modify]

private theorem loadAvg_threadUnblock {t : Tid} (h : threadUnblock s t = some s') :
    s'.loadAvg = s.loadAvg := by
  unfold threadUnblock at h
  split at h
  · cases h
    rfl
  · cases h

private theorem loadAvg_threadCreate (h : threadCreate s = some s') :
    s'.loadAvg = s.loadAvg := by
  simp only [threadCreate, Option.bind_eq_bind, Option.bind_eq_some_iff, Option.some.injEq] at h
  obtain ⟨m, hm, rfl⟩ := h
  have hload := loadAvg_threadUnblock hm
  split
  · rw [loadAvg_threadYield, hload]
  · exact hload

@[simp] theorem loadAvg_charge (s : State) : (charge s).loadAvg = s.loadAvg := by
  unfold charge
  split <;> rfl

private theorem loadAvg_threadTick (s : State) :
    (threadTick s).loadAvg = s.loadAvg ∨
      ∃ m : State, m.loadAvg = s.loadAvg ∧ (threadTick s).loadAvg = (updateLoadAvg m).loadAvg := by
  have hcharge := loadAvg_charge s
  unfold threadTick everySlice
  dsimp only
  split
  · unfold everySecond
    split
    · refine Or.inr ⟨((charge s).threadForeach (updateThreadPriority (charge s).idleThread)).sortReady,
        hcharge, rfl⟩
    · exact Or.inl hcharge
  · exact Or.inl hcharge

/-- A step of the scheduler changes `load_avg` by an update or not at all. -/
theorem loadAvg_step {o : Op} (hs : step s o = some s') :
    s'.loadAvg = s.loadAvg ∨
      ∃ m : State, m.loadAvg = s.loadAvg ∧ s'.loadAvg = (updateLoadAvg m).loadAvg := by
  cases o with
  | tick =>
    cases hs
    exact loadAvg_threadTick _
  | create =>
    simp only [step, Option.ite_none_left_eq_some] at hs
    exact Or.inl (loadAvg_threadCreate hs.2)
  | exit =>
    simp only [step, Option.ite_none_left_eq_some, Option.some.injEq] at hs
    rw [← hs.2]
    exact Or.inl (loadAvg_schedule _)
  | block =>
    cases hs
    exact Or.inl (loadAvg_schedule _)
  | unblock t => exact Or.inl (loadAvg_threadUnblock hs)
  | yield =>
    cases hs
    exact Or.inl (loadAvg_threadYield s)
  | setNice n =>
    simp only [step, Option.ite_none_left_eq_some, Option.some.injEq] at hs
    rw [← hs.2]
    unfold threadSetNice
    dsimp only
    split
    · exact Or.inl (loadAvg_threadYield _)
    · exact Or.inl rfl

/-- The load average of every reachable state is the result of the counts of each second. -/
theorem exists_loadHistory_of_run {os : List Op}
    (hr : run step threadStart os = some s) : ∃ rs, LoadHistory rs s.loadAvg := by
  refine @run_preserves _ _ step (fun s => ∃ rs, LoadHistory rs s.loadAvg) (fun s o s' h hs => ?_)
    _ _ _ ⟨[], .start⟩ hr
  obtain ⟨rs, hrs⟩ := h
  rcases loadAvg_step hs with heq | ⟨m, hm, heq⟩
  · rw [heq]
    exact ⟨rs, hrs⟩
  · rw [heq]
    rw [← hm] at hrs
    exact ⟨_, .second hrs⟩

end Pintos.Threads.Mlfqs

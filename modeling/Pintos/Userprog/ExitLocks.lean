import Pintos.Userprog.WaitProtocol

/-!
# The locks a process holds when it dies

`process_exit` can be called with any subset of `filesys_lock` and the process's own
`proc->lock` held, from a page fault deep inside the kernel. The other threads do anything
that respects the ownership of the two locks and the count of references.
Source `userprog/process.c:65–79, 267–317`, `userprog/exception.c:163–220`.
-/

namespace Pintos.Userprog

open Pintos.Base

/-- The child's own reference is counted until it drops it. -/
def Counted (s : ProcState) : Prop := 1 ≤ s.proc.refCount + s.child.drops

/-- What the other threads may do: they do not move the child, neither take nor give back a lock
for it, and do not drop its reference. -/
structure Rely (s t : ProcState) : Prop where
  child : t.child = s.child
  filesysLock : t.filesysLock = some .child ↔ s.filesysLock = some .child
  procLock : t.proc.lock = some .child ↔ s.proc.lock = some .child
  counted : Counted s → Counted t

/-- A run of the exiting child among the other threads, with the number of its own steps. -/
inductive ExitRun (sc : Scenario) (s : ProcState) : Nat → ProcState → Prop
  | start : ExitRun sc s 0 s
  | child {n : Nat} {t u : ProcState} :
      ExitRun sc s n t → t.childStep sc = some u → ExitRun sc s (n + 1) u
  | others {n : Nat} {t u : ProcState} : ExitRun sc s n t → Rely t u → ExitRun sc s n u

namespace ChildPc

/-- `process_exit` has been called and the thread has not stopped. -/
def exiting : ChildPc → Bool
  | .tryPrint | .print _ | .unlockPrint | .lockFs | .closeFiles _ | .unlockFs | .tryPublish => true
  | .setStatus _ | .setExited _ | .unlockPublish | .upExit | .destroySpt | .free _ => true
  | _ => false

/-- The steps the child takes at most before it stops. -/
def stepsLeft : ChildPc → Nat
  | .tryPrint => 17
  | .print _ => 16
  | .unlockPrint => 15
  | .lockFs => 14
  | .closeFiles _ => 13
  | .unlockFs => 12
  | .tryPublish => 11
  | .setStatus _ => 10
  | .setExited _ => 9
  | .unlockPublish => 8
  | .upExit => 7
  | .destroySpt => 6
  | .free .lock => 5
  | .free .decrement => 4
  | .free .test => 3
  | .free (.unlock _) => 2
  | .free .free => 1
  | _ => 0

/-- The child holds `filesys_lock`, given whether it did when it called `process_exit`. -/
def exitHoldsFs (held : Bool) : ChildPc → Bool
  | .closeFiles _ | .unlockFs => true
  | _ => held

/-- The child holds `proc->lock`, given whether it did when it called `process_exit`. -/
def exitHoldsProc (held : Bool) : ChildPc → Bool
  | .print _ | .unlockPrint | .setStatus _ | .setExited _ | .unlockPublish => true
  | .free .lock => held
  | .free pc => pc.holds
  | .dead _ => false
  | _ => held

/-- The places an exiting child gets to, given the locks it held when it called
`process_exit`. -/
def ExitPlace (fs proc : Bool) : ChildPc → Prop
  | .print held | .setStatus held | .setExited held => held = proc
  | .closeFiles held => held = fs
  | .unlockFs => fs = false
  | .unlockPrint | .unlockPublish => proc = false
  | .free .lock => True
  | .free _ | .dead true => proc = false
  | .asserted => proc = true
  | pc => pc.exiting = true

end ChildPc

/-- The parent and the other users of `filesys_lock` keep to that. -/
theorem ProcInv.rely {sc : Scenario} {s t : ProcState} {th : Thread} (h : ProcInv sc s)
    (hs : s.step sc th = some t) (hth : th ≠ .child) (hexit : s.child.exiting = true) :
    Rely s t := by
  have ht := h.step hs
  have hframe : t.child = s.child ∧
      (t.filesysLock = some .child ↔ s.filesysLock = some .child) := by
    cases th with
    | parent =>
      have hcreated : s.parent.created = true := by
        rw [h.created]
        cases hpc : s.child <;> first | rfl | (rw [hpc] at hexit; cases hexit)
      obtain ⟨hc, -, hfs⟩ := sameChild_parentStep hs hcreated
      exact ⟨hc, by rw [hfs]⟩
    | child => exact absurd rfl hth
    | other =>
      simp only [ProcState.step, ProcState.otherStep] at hs
      split at hs <;> cases hs <;> simp_all
  refine ⟨hframe.1, hframe.2, ?_, fun _ => ?_⟩
  · rw [ht.lock.child, h.lock.child, hframe.1]
  · have hrefs := ht.refCount
    have hparent := ProcInv.parent_drops t.parent
    have hone : t.child.refs = 1 := by
      rw [hframe.1]
      cases hpc : s.child <;> first | rfl | (rw [hpc] at hexit; cases hexit)
    simp only [Counted]
    omega

/-- What is known of an exiting child. -/
structure ExitInv (fs proc : Bool) (s : ProcState) : Prop where
  place : s.child.ExitPlace fs proc
  filesysLock : s.filesysLock = some .child ↔ s.child.exitHoldsFs fs = true
  procLock : s.proc.lock = some .child ↔ s.child.exitHoldsProc proc = true
  counted : Counted s

namespace ExitInv

variable {sc : Scenario} {fs proc : Bool} {s t : ProcState}

private theorem others (h : ExitInv fs proc s) (hr : Rely s t) : ExitInv fs proc t where
  place := hr.child ▸ h.place
  filesysLock := hr.filesysLock.trans (hr.child ▸ h.filesysLock)
  procLock := hr.procLock.trans (hr.child ▸ h.procLock)
  counted := hr.counted h.counted

private theorem childFree {pc : FreePc} (h : ExitInv fs proc s) (hpc : s.child = .free pc)
    (hs : s.processRefcountFree .child pc (fun pc s => s.atChild (.free pc))
      (·.atChild (.dead true)) (·.atChild .asserted) = some t) :
    ExitInv fs proc t ∧ t.child.stepsLeft < s.child.stepsLeft := by
  obtain ⟨pp, cp, rec, record, argv, cmdLine, ch, own, fl, es, res, uaf⟩ := s
  cases hpc
  have hcount := h.counted
  simp only [ProcState.processRefcountFree] at hs
  cases pc with
  | lock =>
    cases proc with
    | false =>
      obtain ⟨hl, hs⟩ := ProcInv.procLock_acquire
        (by rw [Ne, h.procLock]; simp [ChildPc.exitHoldsProc]) hs
      subst hs
      exact ⟨{ h with place := rfl, procLock := iff_of_true rfl rfl }, Nat.lt_of_sub_eq_succ rfl⟩
    | true =>
      have hl : rec.lock = some .child := h.procLock.mpr rfl
      simp only [hl, lockAcquire, if_true, ProcState.procLock, Option.some.injEq] at hs
      subst hs
      exact ⟨{ h with place := rfl }, Nat.lt_of_sub_eq_succ rfl⟩
  | decrement =>
    have hpos : 1 ≤ rec.refCount + 0 := hcount
    cases hs
    exact ⟨{ h with counted := show 1 ≤ rec.refCount - 1 + 1 by omega },
      Nat.lt_of_sub_eq_succ rfl⟩
  | test =>
    have hnonneg : 1 ≤ rec.refCount + 1 := hcount
    rw [if_neg (show ¬ rec.refCount < 0 by omega), Option.some.injEq] at hs
    subst hs
    exact ⟨{ h with }, Nat.lt_of_sub_eq_succ rfl⟩
  | unlock zero =>
    have hs := ProcInv.procLock_release (h.procLock.mpr rfl) hs
    subst hs
    cases zero <;>
      exact ⟨{ h with procLock := iff_of_false (by rintro ⟨⟩) (by rintro ⟨⟩) },
        Nat.lt_of_sub_eq_succ rfl⟩
  | free =>
    cases hs
    exact ⟨{ h with }, Nat.lt_of_sub_eq_succ rfl⟩

/-- A step of the exiting child keeps what is known of it and brings it closer to its end. -/
theorem childStep (h : ExitInv fs proc s) (hs : s.childStep sc = some t) :
    ExitInv fs proc t ∧ t.child.stepsLeft < s.child.stepsLeft := by
  obtain ⟨pp, cp, rec, record, argv, cmdLine, ch, own, fl, es, res, uaf⟩ := s
  have hproc := h.procLock
  have hfs := h.filesysLock
  cases cp
  case tryPrint | tryPublish =>
    have hl : rec.lock = some .child ↔ proc = true := hproc
    simp only [ProcState.childStep, ProcState.tryProcLock, Option.some.injEq] at hs
    split at hs <;> subst hs
    · next hnone =>
      have hfree : proc = false := by simpa [hnone] using hl
      exact ⟨{ h with place := hfree.symm, procLock := iff_of_true rfl rfl },
        Nat.lt_of_sub_eq_succ rfl⟩
    · next hmine =>
      have hheld : proc = true := hl.mp hmine
      exact ⟨{ h with place := hheld.symm, procLock := iff_of_true hmine rfl },
        Nat.lt_of_sub_eq_succ rfl⟩
    · exact ⟨{ h with place := rfl }, Nat.lt_of_sub_eq_succ rfl⟩
  case print held | setExited held =>
    obtain rfl : held = proc := h.place
    cases hs
    cases held <;> exact ⟨{ h with place := rfl }, Nat.lt_of_sub_eq_succ rfl⟩
  case setStatus held =>
    cases hs
    exact ⟨{ h with }, Nat.lt_of_sub_eq_succ rfl⟩
  case unlockPrint | unlockPublish =>
    obtain rfl : proc = false := h.place
    simp only [ProcState.childStep] at hs
    have hs := ProcInv.procLock_release (hproc.mpr rfl) hs
    subst hs
    exact ⟨{ h with place := rfl, procLock := iff_of_false (by rintro ⟨⟩) (by rintro ⟨⟩) },
      Nat.lt_of_sub_eq_succ rfl⟩
  case lockFs =>
    have hl : fl = some .child ↔ fs = true := hfs
    simp only [ProcState.childStep] at hs
    split at hs
    · next hmine =>
      cases hs
      exact ⟨{ h with place := (hl.mp hmine).symm, filesysLock := iff_of_true hmine rfl },
        Nat.lt_of_sub_eq_succ rfl⟩
    · next hnot =>
      have hfree : fs = false := by simpa [hnot] using hl
      cases fl with
      | none =>
        cases hs
        exact ⟨{ h with place := hfree.symm, filesysLock := iff_of_true rfl rfl },
          Nat.lt_of_sub_eq_succ rfl⟩
      | some holder =>
        have hne : holder ≠ .child := fun he => hnot (by rw [he])
        simp [lockAcquire, hne] at hs
  case closeFiles held =>
    obtain rfl : held = fs := h.place
    cases hs
    cases held with
    | false | true => exact ⟨{ h with place := rfl }, Nat.lt_of_sub_eq_succ rfl⟩
  case unlockFs =>
    obtain rfl : fs = false := h.place
    have hl : fl = some .child := hfs.mpr rfl
    simp only [ProcState.childStep, hl, lockRelease, if_true, Option.some.injEq] at hs
    subst hs
    exact ⟨{ h with place := rfl, filesysLock := iff_of_false (by rintro ⟨⟩) (by rintro ⟨⟩) },
      Nat.lt_of_sub_eq_succ rfl⟩
  case upExit =>
    cases hs
    exact ⟨{ h with place := rfl }, Nat.lt_of_sub_eq_succ rfl⟩
  case destroySpt =>
    cases hs
    exact ⟨{ h with place := trivial }, Nat.lt_of_sub_eq_succ rfl⟩
  case free pc => exact h.childFree rfl hs
  case absent | dead | asserted => cases hs
  all_goals cases h.place

private theorem procLock_release_isSome (me : Thread) (asserted next : ProcState → ProcState) :
    (s.procLock (lockRelease me s.proc.lock) asserted next).isSome = true := by
  simp only [lockRelease]
  split <;> rfl

/-- An exiting child can take a step unless another thread holds the lock it needs. -/
theorem progress (sc : Scenario) (hexit : s.child.exiting = true) :
    (s.childStep sc).isSome = true ∨
    (s.child = .lockFs ∧ ∃ holder, holder ≠ .child ∧ s.filesysLock = some holder) ∨
    (s.child = .free .lock ∧ ∃ holder, holder ≠ .child ∧ s.proc.lock = some holder) := by
  cases hpc : s.child with
  | absent | incRef | load | setLoaded _ | upLoad _ | running | dead _ | asserted =>
    rw [hpc] at hexit
    cases hexit
  | unlockPrint | unlockPublish =>
    simp only [ProcState.childStep, hpc]
    exact .inl (procLock_release_isSome ..)
  | lockFs =>
    by_cases hmine : s.filesysLock = some .child
    · exact .inl (by simp [ProcState.childStep, hpc, hmine])
    · cases hfl : s.filesysLock with
      | none => exact .inl (by simp [ProcState.childStep, hpc, hfl, lockAcquire])
      | some holder => exact .inr (.inl ⟨rfl, holder, fun he => hmine (by rw [hfl, he]), rfl⟩)
  | unlockFs =>
    simp only [ProcState.childStep, hpc]
    split <;> exact .inl rfl
  | free pc =>
    simp only [ProcState.childStep, hpc]
    cases pc with
    | lock =>
      simp only [ProcState.processRefcountFree]
      cases hl : s.proc.lock with
      | none => exact .inl rfl
      | some holder =>
        by_cases hmine : holder = .child
        · exact .inl (by simp [lockAcquire, hmine, ProcState.procLock])
        · exact .inr (.inr ⟨trivial, holder, hmine, rfl⟩)
    | decrement | free => exact .inl rfl
    | test =>
      simp only [ProcState.processRefcountFree]
      split <;> exact .inl rfl
    | unlock zero =>
      simp only [ProcState.processRefcountFree]
      exact .inl (procLock_release_isSome ..)
  | _ => exact .inl (by simp [ProcState.childStep, hpc])

/-- The invariant holds when `process_exit` is called with the given locks held. -/
theorem entry (hentry : s.child = .tryPrint) (hcount : Counted s) :
    ExitInv (s.filesysLock == some .child) (s.proc.lock == some .child) s where
  place := by rw [hentry]; rfl
  filesysLock := by rw [hentry]; exact beq_iff_eq.symm
  procLock := by rw [hentry]; exact beq_iff_eq.symm
  counted := hcount

private theorem run {n : Nat} (hentry : ExitInv fs proc s) (hrun : ExitRun sc s n t) :
    ExitInv fs proc t ∧ n + t.child.stepsLeft ≤ s.child.stepsLeft := by
  induction hrun with
  | start => exact ⟨hentry, by omega⟩
  | child _ hs ih =>
    obtain ⟨hinv, hlt⟩ := ih.1.childStep hs
    exact ⟨hinv, by omega⟩
  | others _ hr ih => exact ⟨ih.1.others hr, by rw [hr.child]; exact ih.2⟩

/-- A child that has stopped has died without a lock if and only if it held none when it called
`process_exit`. -/
private theorem stopped (h : ExitInv fs proc s) (hstop : s.child.exiting = false) :
    (s.child = .dead true ∧ s.filesysLock ≠ some .child ∧ s.proc.lock ≠ some .child) ↔
      fs = false ∧ proc = false := by
  have hplace := h.place
  have hfs := h.filesysLock
  have hproc := h.procLock
  cases hpc : s.child with
  | dead loaded =>
    rw [hpc] at hplace hfs hproc
    cases loaded with
    | false => cases hplace
    | true =>
      have hfree : proc = false := hplace
      have hfs : s.filesysLock = some .child ↔ fs = true := hfs
      have hproc : s.proc.lock = some .child ↔ false = true := hproc
      simp [hfs, hproc, hfree]
  | asserted =>
    rw [hpc] at hplace
    have hheld : proc = true := hplace
    simp [hheld]
  | absent | incRef | load | setLoaded _ | upLoad _ | running => rw [hpc] at hplace; cases hplace
  | _ => rw [hpc] at hstop; cases hstop

end ExitInv

/-- In every run of a child that calls `process_exit`, among threads that respect its locks: it
takes at most 17 steps; until it stops it can take its next step, or waits for a lock that another
thread holds; and when it stops it has died, without a failed assertion and holding neither lock,
if and only if it held neither when it called `process_exit`. -/
theorem exit_releases_locks_iff {sc : Scenario} {s t : ProcState} {n : Nat}
    (hentry : s.child = .tryPrint) (hcount : Counted s) (hrun : ExitRun sc s n t) :
    n ≤ 17 ∧
    (t.child.exiting = true →
      (t.childStep sc).isSome = true ∨
      (t.child = .lockFs ∧ ∃ holder, holder ≠ .child ∧ t.filesysLock = some holder) ∨
      (t.child = .free .lock ∧ ∃ holder, holder ≠ .child ∧ t.proc.lock = some holder)) ∧
    (t.child.exiting = false →
      ((t.child = .dead true ∧ t.filesysLock ≠ some .child ∧ t.proc.lock ≠ some .child) ↔
        s.filesysLock ≠ some .child ∧ s.proc.lock ≠ some .child)) := by
  obtain ⟨hinv, hsteps⟩ := (ExitInv.entry hentry hcount).run hrun
  have hleft : s.child.stepsLeft = 17 := by rw [hentry]; rfl
  refine ⟨by omega, ExitInv.progress sc, fun hstop => ?_⟩
  rw [hinv.stopped hstop]
  simp

/-- The child alone is a run among other threads that do nothing. -/
private theorem exitRun_of_run {sc : Scenario} {s t : ProcState} {n m : Nat} {u : ProcState}
    (hs : ExitRun sc s n u) (hr : run (ProcState.step sc) u (.replicate m .child) = some t) :
    ExitRun sc s (n + m) t := by
  induction m generalizing n u with
  | zero =>
    cases hr
    exact hs
  | succ m ih =>
    obtain ⟨v, hv, hrest⟩ := run_cons_some hr
    rw [← Nat.add_assoc, Nat.add_right_comm]
    exact ih (.child hs hv) hrest

/-- The child has been loaded and runs; its parent waits for it. -/
def runningChild : List Thread :=
  .replicate 9 .parent ++ .replicate 4 .child ++ .replicate 10 .parent

theorem exit_releases_locks_iff_running :
    ∃ s t, run (ProcState.step (allOk 7)) .init (runningChild ++ [.child]) = some s ∧
      s.child = .tryPrint ∧ ExitRun (allOk 7) s 16 t ∧ t.child = .dead true ∧
      t.filesysLock ≠ some .child ∧ t.proc.lock ≠ some .child := by
  obtain ⟨s, hs⟩ := Option.isSome_iff_exists.mp
    (show ((run (ProcState.step (allOk 7)) .init (runningChild ++ [.child])).filter fun s =>
      s.child == .tryPrint && (decide (1 ≤ s.proc.refCount + s.child.drops) &&
        (s.filesysLock == none && (s.proc.lock == none &&
          (run (ProcState.step (allOk 7)) s (.replicate 16 .child)).any
            (·.child == .dead true))))).isSome = true by decide)
  obtain ⟨hrun, hs⟩ := Option.filter_eq_some_iff.mp hs
  simp only [Bool.and_eq_true, beq_iff_eq, decide_eq_true_eq, Option.any_eq_true] at hs
  obtain ⟨hentry, hcount, hfs, hproc, t, ht, hdead⟩ := hs
  have hexit : ExitRun (allOk 7) s 16 t := exitRun_of_run .start ht
  have hend := (exit_releases_locks_iff hentry hcount hexit).2.2 (by rw [hdead]; rfl)
  exact ⟨s, t, hrun, hentry, hexit, hend.mpr ⟨by simp [hfs], by simp [hproc]⟩⟩

/-- A fault taken while the child holds `filesys_lock`: it dies with the lock, which no other
thread can ever take. -/
theorem exit_keeps_filesysLock :
    ∃ s t, run (ProcState.step (allOk (-1))) .init runningChild = some s ∧ s.child = .running ∧
      s.filesysLock = none ∧
      ExitRun (allOk (-1)) { s with child := .tryPrint, filesysLock := some .child } 15 t ∧
      t.child = .dead true ∧ t.filesysLock = some .child ∧ t.otherStep = none := by
  obtain ⟨s, hs⟩ := Option.isSome_iff_exists.mp
    (show ((run (ProcState.step (allOk (-1))) .init runningChild).filter fun s =>
      s.child == .running && (s.filesysLock == none &&
        (run (ProcState.step (allOk (-1)))
          { s with child := .tryPrint, filesysLock := some .child } (.replicate 15 .child)).any
          fun t => t.child == .dead true && t.filesysLock == some .child)).isSome = true by decide)
  obtain ⟨hrun, hs⟩ := Option.filter_eq_some_iff.mp hs
  simp only [Bool.and_eq_true, beq_iff_eq, Option.any_eq_true] at hs
  obtain ⟨hrunning, hfs, t, ht, hdead, hheld⟩ := hs
  exact ⟨s, t, hrun, hrunning, hfs, exitRun_of_run .start ht, hdead, hheld,
    by simp [ProcState.otherStep, hheld]⟩

end Pintos.Userprog

import Pintos.Userprog.ProcessInvariant

/-!
# What `process_wait` returns and when the record is freed

Two results over every interleaving of `process_execute` and `process_wait` with
`start_process` and `process_exit`. The parent gets the child's status exactly if the child
finds `proc->lock` free when it publishes it. The record and its two pages are freed exactly
once unless `load` returns false, and they are never used afterwards.
Source `userprog/process.c:31–317`, `docs/p2.md` B8.
-/

namespace Pintos.Userprog

open Pintos.Base

section Lifetime

/-- The child has called `process_exit`. -/
def ChildPc.exitCalled : ChildPc → Bool
  | .absent | .incRef | .load | .setLoaded _ | .upLoad _ | .running | .dead false => false
  | _ => true

/-- The child thread has terminated, if there ever was one. -/
def ChildPc.terminated : ChildPc → Bool
  | .absent | .dead _ => true
  | _ => false

/-- The parent received `TID_ERROR`, or a call of `process_wait` has returned. -/
def ParentPc.finished : ParentPc → Bool
  | .tidError _ => true
  | pc => pc.waitReturned

/-- What was allocated has been freed exactly once. -/
def Allocation.FreedOnce (a : Allocation) : Prop := a.allocated = true → a.freed = 1

/-- The record, its argument page and its command-line page have been freed exactly once. -/
def ProcState.FreedOnce (s : ProcState) : Prop :=
  s.record.FreedOnce ∧ s.argv.FreedOnce ∧ s.cmdLine.FreedOnce

variable {sc : Scenario} {schedule : List Thread} {t : ProcState}

private theorem last_of_finished {pc : ParentPc} (h : pc.finished = true) : pc.last = false := by
  cases pc <;> first | rfl | cases h

private theorem last_of_terminated {pc : ChildPc} (h : pc.terminated = true) :
    pc.last = false := by
  cases pc <;> first | rfl | cases h

private theorem drops_of_finished {pc : ParentPc} (h : pc.finished = true)
    (hr : pc.hasRecord = true) : pc.drops = 1 := by
  cases pc with
  | tidError site => cases site <;> first | rfl | cases hr
  | returned again | lockFind again | find again => cases h; rfl
  | unlockFind again found => cases h; rfl
  | _ => cases h

private theorem creates_of_finished {pc : ParentPc} (h : pc.finished = true)
    (hposs : pc.Possible sc) : sc.creates = pc.created := by
  cases pc with
  | tidError site => cases site <;> first | exact hposs | exact hposs.1
  | returned again | lockFind again | find again => exact hposs.1
  | unlockFind again found => exact hposs.2.1
  | _ => cases h

/-- Once both are done a reference is left over exactly if `load` returned false. -/
private theorem ProcInv.refCount_of_done (h : ProcInv sc t) (hp : t.parent.finished = true)
    (hc : t.child.terminated = true) (hr : t.parent.hasRecord = true) :
    t.proc.refCount = 0 ↔ (sc.creates = true → sc.load ≠ .returns false) := by
  have hrefs := h.refCount
  have hcreates : sc.creates = t.child.created := (creates_of_finished hp h.parent).trans h.created
  have hchild := h.child
  rw [drops_of_finished hp hr] at hrefs
  cases hcp : t.child with
  | absent =>
    rw [hcp] at hrefs hcreates
    exact iff_of_true hrefs (by simp [hcreates, ChildPc.created])
  | dead exited =>
    rw [hcp] at hrefs hcreates hchild
    rw [hrefs, hcreates]
    cases exited with
    | false =>
      have hload : sc.load = .returns false := hchild
      simp [ChildPc.refs, ChildPc.drops, ChildPc.created, hload]
    | true =>
      have hload : sc.load ≠ .returns false := hchild
      simp [ChildPc.refs, ChildPc.drops, hload]
  | _ => rw [hcp] at hc; cases hc

/-- An error before the record exists gives back the pages it has. -/
private theorem ProcInv.freedOnce_of_error (h : ProcInv sc t) (hp : t.parent.finished = true)
    (hr : t.parent.hasRecord = false) : t.FreedOnce := by
  have hfreed := (h.before_record hr).2.2
  have hrecord : t.record.allocated = false := by rw [h.record, hr]
  have hargv := h.argv
  have hcmd := h.cmdLine
  rw [hfreed] at hargv hcmd
  cases hpp : t.parent with
  | tidError site =>
    rw [hpp] at hargv hcmd hr
    refine ⟨fun ha => absurd ha (by simp [hrecord]), ?_, ?_⟩
    · rw [hargv]
      cases site <;> first | cases hr; done | exact fun _ => rfl | exact nofun
    · rw [hcmd]
      cases site <;> first | cases hr; done | exact fun _ => rfl | exact nofun
  | returned _ | lockFind _ | find _ | unlockFind _ _ => rw [hpp] at hr; cases hr
  | _ => rw [hpp] at hp; cases hp

private theorem pages_of_hasRecord {pc : ParentPc} (h : pc.hasRecord = true) :
    pc.hasArgv = true ∧ pc.argvFreed = 0 ∧ pc.hasCmdLine = true ∧ pc.cmdLineFreed = 0 := by
  cases pc with
  | tidError site => cases site <;> first | exact ⟨rfl, rfl, rfl, rfl⟩ | cases h
  | _ => first | exact ⟨rfl, rfl, rfl, rfl⟩ | cases h

private theorem ProcInv.freedOnce_iff (h : ProcInv sc t) (hr : t.parent.hasRecord = true) :
    t.FreedOnce ↔ t.record.freed = 1 := by
  obtain ⟨hargv, hargv', hcmd, hcmd'⟩ := pages_of_hasRecord hr
  have hrecord : t.record.allocated = true := by rw [h.record, hr]
  simp [ProcState.FreedOnce, Allocation.FreedOnce, h.argv, h.cmdLine, hrecord, hargv, hargv', hcmd,
    hcmd']

/-- In every interleaving the record is never used after it was freed and its reference count is
never negative; once child and parent are done, the record and its pages have been freed exactly
once if and only if `load` did not return false. -/
theorem record_freed_once_iff (hr : run (ProcState.step sc) .init schedule = some t) :
    t.useAfterFree = false ∧ 0 ≤ t.proc.refCount ∧
    (t.child.terminated = true → t.parent.finished = true →
      (t.FreedOnce ↔ (sc.creates = true → sc.load ≠ .returns false))) := by
  have h := procInv_run hr
  refine ⟨h.useAfterFree, h.refCount_nonneg, fun hc hp => ?_⟩
  cases hrec : t.parent.hasRecord with
  | false =>
    refine iff_of_true (h.freedOnce_of_error hp hrec) fun hcreates => ?_
    rw [creates_of_finished hp h.parent] at hcreates
    exact absurd (ProcInv.hasRecord_of_created hcreates) (by simp [hrec])
  | true =>
    have hfreed : t.record.freed = if t.proc.refCount = 0 then 1 else 0 := by
      rw [h.record]
      simp [last_of_finished hp, last_of_terminated hc]
    rw [← h.refCount_of_done hp hc hrec, h.freedOnce_iff hrec, hfreed]
    simp

/-- Nothing fails, and the child exits with `status`. -/
def allOk (status : Int) : Scenario := ⟨true, true, true, true, true, .returns true, status⟩

/-- The parent waits, then the child exits, then the parent returns. -/
def waitFirst : List Thread :=
  .replicate 9 .parent ++ .replicate 4 .child ++ .replicate 10 .parent ++ .replicate 17 .child ++
  .replicate 12 .parent

theorem record_freed_once_iff_waitFirst :
    ∃ t, run (ProcState.step (allOk 7)) .init waitFirst = some t ∧ t.child.terminated = true ∧
      t.parent.finished = true ∧ t.useAfterFree = false ∧ t.FreedOnce := by
  obtain ⟨t, ht⟩ := Option.isSome_iff_exists.mp
    (show ((run (ProcState.step (allOk 7)) .init waitFirst).filter fun t =>
      t.child.terminated && t.parent.finished).isSome = true by decide)
  obtain ⟨hrun, hdone⟩ := Option.filter_eq_some_iff.mp ht
  obtain ⟨hc, hp⟩ := Bool.and_eq_true_iff.mp hdone
  obtain ⟨huse, -, hfreed⟩ := record_freed_once_iff hrun
  exact ⟨t, hrun, hc, hp, huse, (hfreed hc hp).mpr fun _ => nofun⟩

/-- When `load` returns false the child keeps its reference, and the record is never freed. -/
theorem load_failure_leaks_record :
    ∃ t, run (ProcState.step { allOk 7 with load := .returns false }) .init
        (.replicate 9 .parent ++ .replicate 4 .child ++ .replicate 9 .parent) = some t ∧
      t.child.terminated = true ∧ t.parent.finished = true ∧ t.proc.refCount = 1 ∧
      ¬ t.FreedOnce := by
  obtain ⟨t, ht⟩ := Option.isSome_iff_exists.mp
    (show ((run (ProcState.step { allOk 7 with load := .returns false }) .init
        (.replicate 9 .parent ++ .replicate 4 .child ++ .replicate 9 .parent)).filter fun t =>
      t.child.terminated && (t.parent.finished && (t.proc.refCount == 1 &&
        (t.record.allocated && t.record.freed == 0)))).isSome = true by decide)
  obtain ⟨hrun, hdone⟩ := Option.filter_eq_some_iff.mp ht
  simp only [Bool.and_eq_true, beq_iff_eq] at hdone
  obtain ⟨hc, hp, hone, halloc, hfreed⟩ := hdone
  exact ⟨t, hrun, hc, hp, hone, fun h => absurd (h.1 halloc) (by simp [hfreed])⟩

end Lifetime

section Status

/-- If the step is the child's attempt to publish its status, `proc->lock` is free,
`userprog/process.c:305`. -/
def PublishesFree (s : ProcState) (th : Thread) : Prop :=
  th = .child → s.child = .tryPublish → s.proc.lock = none

variable {sc : Scenario} {schedule : List Thread} {s t : ProcState}

private theorem procLock_cases {l : Locking} {asserted next : ProcState → ProcState}
    (hs : s.procLock l asserted next = some t) :
    asserted s.touch = t ∨ ∃ holder, next (s.modifyProc fun p => { p with lock := holder }) = t := by
  cases l with
  | blocked => cases hs
  | asserts => exact .inl (Option.some.inj hs)
  | proceeds holder => exact .inr ⟨holder, Option.some.inj hs⟩

private theorem parentLock_cases {l : Locking} {next : ProcState → ProcState}
    (hs : s.parentLock l next = some t) :
    s.atParent .asserted = t ∨ ∃ holder, next { s with ownLock := holder } = t := by
  cases l with
  | blocked => cases hs
  | asserts => exact .inl (Option.some.inj hs)
  | proceeds holder => exact .inr ⟨holder, Option.some.inj hs⟩

/-- The child and its status are those of `s`, and so is `filesys_lock`. -/
def SameChild (s t : ProcState) : Prop :=
  t.child = s.child ∧ t.proc.exitStatus = s.proc.exitStatus ∧ t.filesysLock = s.filesysLock

private theorem sameChild_parentFree {caller : FreeCaller} {pc : FreePc}
    (hs : s.processRefcountFree .parent pc (fun pc s => s.atParent (.free caller pc))
      (ProcState.afterFree caller) (·.atParent .asserted) = some t) : SameChild s t := by
  cases pc with
  | lock =>
    simp only [ProcState.processRefcountFree] at hs
    rcases procLock_cases hs with rfl | ⟨holder, rfl⟩ <;> exact ⟨rfl, rfl, rfl⟩
  | decrement => cases hs; exact ⟨rfl, rfl, rfl⟩
  | test =>
    simp only [ProcState.processRefcountFree] at hs
    split at hs <;> cases hs <;> exact ⟨rfl, rfl, rfl⟩
  | unlock zero =>
    simp only [ProcState.processRefcountFree] at hs
    rcases procLock_cases hs with rfl | ⟨holder, rfl⟩
    · exact ⟨rfl, rfl, rfl⟩
    · cases zero <;> cases caller <;> exact ⟨rfl, rfl, rfl⟩
  | free => cases hs; cases caller <;> exact ⟨rfl, rfl, rfl⟩

/-- The parent leaves an existing child, its status and `filesys_lock` alone. -/
theorem sameChild_parentStep (hs : s.parentStep sc = some t) (hc : s.parent.created = true) :
    SameChild s t := by
  obtain ⟨pp, cp, proc, record, argv, cmdLine, ch, own, fs, es, res, uaf⟩ := s
  cases pp
  case allocArgv | allocCmdLine | tokenize | malloc | create => cases hc
  case setPid | push | testLoaded | drop | testWaited | setWaited | readStatus | remove =>
    cases hs
    exact ⟨rfl, rfl, rfl⟩
  case lockPush | unlockPush | lockDrop | unlockDrop | lockRemove | unlockRemove | lockFind =>
    simp only [ProcState.parentStep] at hs
    rcases parentLock_cases hs with rfl | ⟨holder, rfl⟩ <;> exact ⟨rfl, rfl, rfl⟩
  case lockWaited | unlockAgain | unlockWaited | lockStatus | unlockStatus =>
    simp only [ProcState.parentStep] at hs
    rcases procLock_cases hs with rfl | ⟨holder, rfl⟩ <;> exact ⟨rfl, rfl, rfl⟩
  case downLoad | downExit =>
    simp only [ProcState.parentStep, ProcState.semaDown] at hs
    split at hs <;> cases hs
    exact ⟨rfl, rfl, rfl⟩
  case free caller pc => exact sameChild_parentFree hs
  case returned => cases hs; exact ⟨rfl, rfl, rfl⟩
  case find =>
    simp only [ProcState.parentStep] at hs
    split at hs <;> cases hs <;> exact ⟨rfl, rfl, rfl⟩
  case unlockFind again found =>
    cases found <;> simp only [ProcState.parentStep] at hs <;>
      rcases parentLock_cases hs with rfl | ⟨holder, rfl⟩ <;> exact ⟨rfl, rfl, rfl⟩
  case tidError | asserted => cases hs

private theorem childFree_status {pc : FreePc}
    (hs : s.processRefcountFree .child pc (fun pc s => s.atChild (.free pc))
      (·.atChild (.dead true)) (·.atChild .asserted) = some t) (hne : t.child ≠ .asserted) :
    t.child.statusSet = true ∧ t.proc.exitStatus = s.proc.exitStatus := by
  cases pc with
  | lock =>
    simp only [ProcState.processRefcountFree] at hs
    rcases procLock_cases hs with rfl | ⟨holder, rfl⟩
    · exact absurd rfl hne
    · exact ⟨rfl, rfl⟩
  | decrement => cases hs; exact ⟨rfl, rfl⟩
  | test =>
    simp only [ProcState.processRefcountFree] at hs
    split at hs <;> cases hs
    · exact absurd rfl hne
    · exact ⟨rfl, rfl⟩
  | unlock zero =>
    simp only [ProcState.processRefcountFree] at hs
    rcases procLock_cases hs with rfl | ⟨holder, rfl⟩
    · exact absurd rfl hne
    · cases zero <;> exact ⟨rfl, rfl⟩
  | free => cases hs; exact ⟨rfl, rfl⟩

private theorem statusSet_parentStep (hs : s.parentStep sc = some t)
    (hset : t.child.statusSet = true) : s.child.statusSet = true := by
  cases hc : s.parent.created with
  | true => exact (sameChild_parentStep hs hc).1 ▸ hset
  | false =>
    obtain ⟨pp, cp, proc, record, argv, cmdLine, ch, own, fs, es, res, uaf⟩ := s
    cases pp
    case allocArgv | allocCmdLine | tokenize | malloc =>
      simp only [ProcState.parentStep] at hs
      split at hs <;> cases hs <;> exact hset
    case create =>
      simp only [ProcState.parentStep] at hs
      split at hs <;> cases hs
      · cases hset
      · exact hset
    case free caller pc => exact (sameChild_parentFree hs).1 ▸ hset
    case tidError => cases hs
    all_goals cases hc

private theorem childStep_status (hs : s.childStep sc = some t) (hne : t.child ≠ .asserted) :
    (s.child = .tryPublish ∧ s.proc.lock ≠ none ∧ s.proc.lock ≠ some .child ∧
      t.child.statusSet = true ∧ t.proc.exitStatus = s.proc.exitStatus) ∨
    (s.child.statusSet = false ∧ t.proc.exitStatus = sc.status) ∨
    (t.child.statusSet = s.child.statusSet ∧ t.proc.exitStatus = s.proc.exitStatus) := by
  obtain ⟨pp, cp, proc, record, argv, cmdLine, ch, own, fs, es, res, uaf⟩ := s
  cases cp
  case setStatus held => cases hs; exact .inr (.inl ⟨rfl, rfl⟩)
  case tryPublish =>
    simp only [ProcState.childStep, ProcState.tryProcLock, Option.some.injEq] at hs
    split at hs <;> subst hs
    · exact .inr (.inr ⟨rfl, rfl⟩)
    · exact .inr (.inr ⟨rfl, rfl⟩)
    · next holder hne hl => exact .inl ⟨rfl, by simp [hl], by simp_all, rfl, rfl⟩
  all_goals refine .inr (.inr ?_)
  case incRef | setLoaded | running | upExit | destroySpt =>
    cases hs
    exact ⟨rfl, rfl⟩
  case load =>
    simp only [ProcState.childStep] at hs
    split at hs
    · cases hs
      exact ⟨rfl, rfl⟩
    · split at hs <;> cases hs
      exact ⟨rfl, rfl⟩
  case upLoad held | print held | closeFiles held | setExited held =>
    cases hs
    cases held <;> exact ⟨rfl, rfl⟩
  case tryPrint =>
    simp only [ProcState.childStep, ProcState.tryProcLock, Option.some.injEq] at hs
    split at hs <;> subst hs <;> exact ⟨rfl, rfl⟩
  case unlockPrint | unlockPublish =>
    simp only [ProcState.childStep] at hs
    rcases procLock_cases hs with rfl | ⟨holder, rfl⟩
    · exact absurd rfl hne
    · exact ⟨rfl, rfl⟩
  case lockFs =>
    simp only [ProcState.childStep] at hs
    split at hs
    · cases hs
      exact ⟨rfl, rfl⟩
    · split at hs <;> cases hs
      exact ⟨rfl, rfl⟩
  case unlockFs =>
    simp only [ProcState.childStep] at hs
    split at hs <;> cases hs <;> exact ⟨rfl, rfl⟩
  case free pc => exact childFree_status hs hne
  case absent | dead | asserted => cases hs

private theorem child_ne_asserted (h : ProcInv sc s) : s.child ≠ .asserted := by
  intro hpc
  have hposs := h.child
  rw [hpc] at hposs
  exact hposs

private theorem created_of_statusSet (h : ProcInv sc s) (hset : s.child.statusSet = true) :
    s.parent.created = true := by
  rw [h.created]
  cases hpc : s.child <;> first | rfl | (rw [hpc] at hset; cases hset)

private theorem otherStep_frame (hs : s.otherStep = some t) :
    t.child = s.child ∧ t.proc = s.proc := by
  simp only [ProcState.otherStep] at hs
  split at hs <;> cases hs <;> exact ⟨rfl, rfl⟩

private theorem lost_step {th : Thread} (h : ProcInv sc s)
    (hlost : s.child.statusSet = true ∧ s.proc.exitStatus = -1) (hs : s.step sc th = some t) :
    t.child.statusSet = true ∧ t.proc.exitStatus = -1 := by
  obtain ⟨hset, hval⟩ := hlost
  cases th with
  | parent =>
    obtain ⟨hc, hv, -⟩ := sameChild_parentStep hs (created_of_statusSet h hset)
    exact ⟨hc ▸ hset, hv.trans hval⟩
  | child =>
    rcases childStep_status hs (child_ne_asserted (h.step hs)) with
      ⟨-, -, -, hset', hv⟩ | ⟨hset', -⟩ | ⟨hset', hv⟩
    · exact ⟨hset', hv.trans hval⟩
    · cases hset.symm.trans hset'
    · exact ⟨hset'.trans hset, hv.trans hval⟩
  | other =>
    obtain ⟨hc, hv⟩ := otherStep_frame hs
    exact ⟨hc ▸ hset, hv ▸ hval⟩

/-- A child that finds the lock taken when it publishes loses its status. -/
private theorem lost_of_taken {th : Thread} (h : ProcInv sc s) (hfail : ¬ PublishesFree s th)
    (hs : s.step sc th = some t) : t.child.statusSet = true ∧ t.proc.exitStatus = -1 := by
  simp only [PublishesFree, Classical.not_imp] at hfail
  obtain ⟨rfl, hpc, hl⟩ := hfail
  have hmine : s.proc.lock ≠ some .child := by
    rw [Ne, h.lock.child, hpc]
    exact nofun
  have hval : s.proc.exitStatus = -1 := h.unset (by rw [hpc]; rfl)
  have hne := child_ne_asserted (h.step hs)
  simp only [ProcState.step, ProcState.childStep, hpc, ProcState.tryProcLock,
    Option.some.injEq] at hs
  split at hs
  · next hl' => exact absurd hl' hl
  · next hl' => exact absurd hl' hmine
  · subst hs
    exact ⟨rfl, hval⟩

/-- While the lock is free whenever the child publishes, a child past that place has its status
in the record. -/
private theorem published_step {th : Thread} (h : ProcInv sc s)
    (hpub : s.child.statusSet = true → s.proc.exitStatus = sc.status) (hfree : PublishesFree s th)
    (hs : s.step sc th = some t) : t.child.statusSet = true → t.proc.exitStatus = sc.status := by
  intro hset
  have ht := h.step hs
  cases th with
  | parent =>
    have hset' := statusSet_parentStep hs hset
    obtain ⟨-, hv, -⟩ := sameChild_parentStep hs (created_of_statusSet h hset')
    exact hv.trans (hpub hset')
  | child =>
    rcases childStep_status hs (child_ne_asserted ht) with ⟨hpc, hl, -⟩ | ⟨-, hv⟩ | ⟨hset', hv⟩
    · exact absurd (hfree rfl hpc) hl
    · exact hv
    · exact hv.trans (hpub (hset' ▸ hset))
  | other =>
    obtain ⟨hc, hv⟩ := otherStep_frame hs
    exact hv ▸ hpub (hc ▸ hset)

private theorem exit_of_ups {pc : ChildPc} {exits : Bool} (h : 2 ≤ pc.ups exits) :
    pc.exitCalled = true ∧ pc.statusSet = true := by
  cases pc with
  | dead exited =>
    cases exited with
    | false => simp [ChildPc.ups] at h
    | true => exact ⟨rfl, rfl⟩
  | destroySpt => exact ⟨rfl, rfl⟩
  | free pc => exact ⟨rfl, rfl⟩
  | _ => cases exits <;> simp [ChildPc.ups] at h

private theorem downs_of_waitReturned {pc : ParentPc} (h : pc.waitReturned = true) :
    pc.downs = 2 := by
  cases pc <;> first | (cases h; rfl) | cases h

private theorem parentStep_of_waitReturned (h : ProcInv sc s) (hw : s.parent.waitReturned = true) :
    (s.parentStep sc).isSome = true := by
  have hown := h.ownLock
  have hposs := h.parent
  cases hpp : s.parent with
  | returned again => simp [ProcState.parentStep, hpp]
  | lockFind again =>
    rw [hpp] at hown
    simp [ProcState.parentStep, hpp, hown, ParentPc.holdsOwn, lockAcquire, ProcState.parentLock]
  | find again =>
    simp only [ProcState.parentStep, hpp]
    split <;> rfl
  | unlockFind again found =>
    rw [hpp] at hown
    cases found <;>
      simp [ProcState.parentStep, hpp, hown, ParentPc.holdsOwn, lockRelease, ProcState.parentLock]
  | _ => rw [hpp] at hw; cases hw

/-- In every interleaving a call of `process_wait` returns only after the child has called
`process_exit`; the first call returns the child's status if and only if the child found
`proc->lock` free when it published it, or the status is -1; and every later call returns -1 and
is never blocked. -/
theorem wait_returns_status_iff (hr : run (ProcState.step sc) .init schedule = some t) {v : Int}
    {rest : List Int} (hres : t.results = v :: rest) :
    t.child.exitCalled = true ∧
    (v = sc.status ↔
      Along (ProcState.step sc) PublishesFree .init schedule ∨ sc.status = -1) ∧
    (∀ r ∈ rest, r = -1) ∧ (t.step sc .parent).isSome = true := by
  have h := procInv_run hr
  have hw : t.parent.waitReturned = true := by
    cases hw : t.parent.waitReturned with
    | true => rfl
    | false => cases (h.first hw).symm.trans hres
  have hsema := h.semaphore
  have hdowns := downs_of_waitReturned hw
  obtain ⟨hexit, hset⟩ := exit_of_ups (show 2 ≤ t.child.ups sc.exits by omega)
  obtain ⟨rest', hres', hrest⟩ := h.later hw
  obtain ⟨rfl, rfl⟩ := List.cons.inj (hres'.symm.trans hres)
  refine ⟨hexit, ⟨fun hv => ?_, ?_⟩, hrest, parentStep_of_waitReturned h hw⟩
  · by_cases hfree : Along (ProcState.step sc) PublishesFree .init schedule
    · exact .inl hfree
    · have hlost := run_reaches_of_not_along (P := ProcInv sc)
        (Q := fun s => s.child.statusSet = true ∧ s.proc.exitStatus = -1)
        (fun _ _ _ hi hs => hi.step hs) (fun _ _ _ hi hf hs => lost_of_taken hi hf hs)
        (fun _ _ _ hi hl hs => lost_step hi hl hs) (.init sc) hfree hr
      exact .inr (hv.symm.trans hlost.2)
  · rintro (hfree | hminus)
    · have hpub := run_preserves_along
        (P := fun s => ProcInv sc s ∧ (s.child.statusSet = true → s.proc.exitStatus = sc.status))
        (fun _ _ _ hi hf hs => ⟨hi.1.step hs, published_step hi.1 hi.2 hf hs⟩)
        ⟨.init sc, nofun⟩ hfree hr
      exact hpub.2 hset
    · rcases h.status with hval | hval
      · exact hval.trans hminus.symm
      · exact hval

theorem wait_returns_status_iff_waitFirst :
    ∃ t, run (ProcState.step (allOk 7)) .init (waitFirst ++ .replicate 4 .parent) = some t ∧
      t.results = [7, -1] ∧ t.child.exitCalled = true ∧
      (Along (ProcState.step (allOk 7)) PublishesFree .init (waitFirst ++ .replicate 4 .parent) ∨
        (allOk 7).status = -1) := by
  obtain ⟨t, ht⟩ := Option.isSome_iff_exists.mp
    (show ((run (ProcState.step (allOk 7)) .init (waitFirst ++ .replicate 4 .parent)).filter
      fun t => t.results == [7, -1]).isSome = true by decide)
  obtain ⟨hrun, hres⟩ := Option.filter_eq_some_iff.mp ht
  rw [beq_iff_eq] at hres
  obtain ⟨hexit, hval, -, -⟩ := wait_returns_status_iff hrun hres
  exact ⟨t, hrun, hres, hexit, hval.mp rfl⟩

/-- The child exits while its parent holds `proc->lock` to mark it as waited for: the parent gets
-1 and not 7. -/
theorem wait_loses_status :
    ∃ t, run (ProcState.step (allOk 7)) .init (.replicate 9 .parent ++ .replicate 4 .child ++
        .replicate 7 .parent ++ .replicate 7 .child ++ .replicate 14 .parent) = some t ∧
      t.child.exitCalled = true ∧ t.results = [-1] := by
  obtain ⟨t, ht⟩ := Option.isSome_iff_exists.mp
    (show ((run (ProcState.step (allOk 7)) .init (.replicate 9 .parent ++ .replicate 4 .child ++
        .replicate 7 .parent ++ .replicate 7 .child ++ .replicate 14 .parent)).filter
      fun t => t.child.exitCalled && t.results == [-1]).isSome = true by decide)
  obtain ⟨hrun, hdone⟩ := Option.filter_eq_some_iff.mp ht
  simp only [Bool.and_eq_true, beq_iff_eq] at hdone
  exact ⟨t, hrun, hdone⟩

end Status

end Pintos.Userprog

import Pintos.Userprog.Process
import Mathlib.Tactic.Common

/-!
# What the places of parent and child say about the record

Every shared field is determined by where the two threads are: how often the semaphore was
raised and lowered, how many references are counted, who holds which lock, what is on the
parent's list and what has been freed. Source `userprog/process.c:31–317`.
-/

namespace Pintos.Userprog

open Pintos.Base

namespace FreePc

/-- The caller holds the lock of the record. -/
def holds : FreePc → Bool
  | .lock | .free => false
  | .decrement | .test | .unlock _ => true

/-- The reference has been dropped. -/
def drops : FreePc → Int
  | .lock | .decrement => 0
  | .test | .unlock _ | .free => 1

/-- The reference has been dropped, and if it was the last one the record is still to be freed. -/
def last : FreePc → Bool
  | .lock | .decrement | .unlock false => false
  | .test | .unlock true | .free => true

/-- What the caller knows about the count. -/
def ZeroOk (refCount : Int) : FreePc → Prop
  | .unlock zero => zero = (refCount == 0)
  | .free => refCount = 0
  | _ => True

end FreePc

namespace Scenario

/-- `thread_create` is reached and succeeds. -/
def creates (sc : Scenario) : Bool :=
  sc.argvOk && sc.cmdLineOk && sc.argsFit && sc.mallocOk && sc.createOk

/-- `load` returns true. -/
def loadOk (sc : Scenario) : Bool := sc.load == .returns true

/-- `load` ends in `process_exit`. -/
def exits (sc : Scenario) : Bool := sc.load == .exits

private theorem exits_of_returns {sc : Scenario} {ok : Bool} (h : sc.load = .returns ok) :
    sc.exits = false := by
  simp [exits, h]

end Scenario

namespace ParentPc

/-- How often the parent has lowered the semaphore. -/
def downs : ParentPc → Nat
  | .testLoaded | .lockDrop | .drop | .unlockDrop | .free .load _ | .tidError .load => 1
  | .returned false | .lockFind false | .find false | .unlockFind false _ => 1
  | .lockWaited | .testWaited | .unlockAgain | .setWaited | .unlockWaited | .downExit => 1
  | .lockStatus | .readStatus | .unlockStatus | .lockRemove | .remove | .unlockRemove => 2
  | .free .wait _ | .returned true | .lockFind true | .find true | .unlockFind true _ => 2
  | _ => 0

/-- How many references the parent has dropped. -/
def drops : ParentPc → Int
  | .free _ pc => pc.drops
  | .tidError .create | .tidError .load => 1
  | .returned true | .lockFind true | .find true | .unlockFind true _ => 1
  | _ => 0

/-- The parent dropped a reference and may still have to free the record. -/
def last : ParentPc → Bool
  | .free _ pc => pc.last
  | _ => false

/-- The parent holds the lock of the child's record. -/
def holds : ParentPc → Bool
  | .testWaited | .unlockAgain | .setWaited | .unlockWaited | .readStatus | .unlockStatus => true
  | .free _ pc => pc.holds
  | _ => false

/-- The parent holds its own lock. -/
def holdsOwn : ParentPc → Bool
  | .push | .unlockPush | .drop | .unlockDrop | .find _ | .unlockFind _ _ => true
  | .remove | .unlockRemove => true
  | _ => false

/-- The child is on the parent's list. -/
def listed : ParentPc → Bool
  | .unlockPush | .downLoad | .testLoaded | .lockDrop | .drop => true
  | .returned again | .lockFind again | .find again | .unlockFind again _ => !again
  | .lockWaited | .testWaited | .unlockAgain | .setWaited | .unlockWaited | .downExit => true
  | .lockStatus | .readStatus | .unlockStatus | .lockRemove | .remove => true
  | _ => false

/-- The parent has marked the child as waited for. -/
def waited : ParentPc → Bool
  | .unlockWaited | .downExit | .lockStatus | .readStatus | .unlockStatus => true
  | .lockRemove | .remove | .unlockRemove | .free .wait _ => true
  | .returned again | .lockFind again | .find again | .unlockFind again _ => again
  | _ => false

/-- The record has been allocated. -/
def hasRecord : ParentPc → Bool
  | .allocArgv | .allocCmdLine | .tokenize | .malloc => false
  | .tidError .argv | .tidError .cmdLine | .tidError .args | .tidError .malloc => false
  | _ => true

/-- The child has been created. -/
def created : ParentPc → Bool
  | .create | .free .create _ | .tidError .create => false
  | pc => pc.hasRecord

/-- The record has the child's tid. -/
def pidSet : ParentPc → Bool
  | .setPid => false
  | pc => pc.created

/-- The page of the argument vector has been allocated. -/
def hasArgv : ParentPc → Bool
  | .allocArgv | .tidError .argv => false
  | _ => true

/-- The page of the command line has been allocated. -/
def hasCmdLine : ParentPc → Bool
  | .allocArgv | .allocCmdLine | .tidError .argv | .tidError .cmdLine => false
  | _ => true

/-- How often `process_execute` freed the page of the argument vector itself. -/
def argvFreed : ParentPc → Nat
  | .tidError .cmdLine | .tidError .args | .tidError .malloc => 1
  | _ => 0

/-- How often `process_execute` freed the page of the command line itself. -/
def cmdLineFreed : ParentPc → Nat
  | .tidError .args | .tidError .malloc => 1
  | _ => 0

/-- The parent has read the exit status. -/
def statusRead : ParentPc → Bool
  | .unlockStatus | .lockRemove | .remove | .unlockRemove | .free .wait _ => true
  | _ => false

/-- An earlier call of `process_wait` has returned. -/
def waitReturned : ParentPc → Bool
  | .returned again | .lockFind again | .find again | .unlockFind again _ => again
  | _ => false

/-- What the parent knows about the count of references. -/
def ZeroOk (refCount : Int) : ParentPc → Prop
  | .free _ pc => pc.ZeroOk refCount
  | _ => True

/-- The step here may access the child's record. -/
def touches : ParentPc → Bool
  | .tidError _ => false
  | .returned again | .lockFind again | .find again | .unlockFind again _ => !again
  | pc => pc.hasRecord

/-- The outcomes that lead the parent here. -/
def Possible (sc : Scenario) : ParentPc → Prop
  | .allocArgv => True
  | .allocCmdLine => sc.argvOk = true
  | .tokenize => sc.argvOk = true ∧ sc.cmdLineOk = true
  | .malloc => sc.argvOk = true ∧ sc.cmdLineOk = true ∧ sc.argsFit = true
  | .create => sc.argvOk = true ∧ sc.cmdLineOk = true ∧ sc.argsFit = true ∧ sc.mallocOk = true
  | .tidError .load | .lockDrop | .drop | .unlockDrop | .free .load _ =>
    sc.creates = true ∧ sc.loadOk = false
  | .tidError _ | .free .create _ => sc.creates = false
  | .setPid | .lockPush | .push | .unlockPush | .downLoad | .testLoaded => sc.creates = true
  | .unlockFind again found => found = !again ∧ sc.creates = true ∧ sc.loadOk = true
  | .unlockAgain | .asserted => False
  | _ => sc.creates = true ∧ sc.loadOk = true

end ParentPc

namespace ChildPc

/-- How often the child has raised the semaphore, given whether `load` ends in `process_exit`. -/
def ups (exits : Bool) : ChildPc → Nat
  | .absent | .incRef | .load | .setLoaded _ | .upLoad _ => 0
  | .dead false => 1
  | .destroySpt | .free _ | .dead true => if exits then 1 else 2
  | _ => if exits then 0 else 1

/-- How many references the child has counted. -/
def refs : ChildPc → Int
  | .absent | .incRef => 0
  | _ => 1

/-- How many references the child has dropped. -/
def drops : ChildPc → Int
  | .free pc => pc.drops
  | .dead true => 1
  | _ => 0

/-- The child dropped its reference and may still have to free the record. -/
def last : ChildPc → Bool
  | .free pc => pc.last
  | _ => false

/-- The child holds the lock of its record. -/
def holds : ChildPc → Bool
  | .print _ | .unlockPrint | .setStatus _ | .setExited _ | .unlockPublish => true
  | .free pc => pc.holds
  | _ => false

/-- The child holds `filesys_lock`, given whether `load` ends in `process_exit`. -/
def holdsFs (exits : Bool) : ChildPc → Bool
  | .absent | .incRef | .load | .setLoaded _ | .upLoad _ | .running | .dead false => false
  | .closeFiles _ | .unlockFs => true
  | _ => exits

/-- The child has reported whether it was loaded, or will not do so any more. -/
def reported : ChildPc → Bool
  | .absent | .incRef | .load | .setLoaded _ => false
  | _ => true

/-- The child has called `process_exit` and passed the place where it publishes its status. -/
def statusSet : ChildPc → Bool
  | .setExited _ | .unlockPublish | .upExit | .destroySpt | .free _ | .dead true => true
  | _ => false

/-- What the child knows about the count of references. -/
def ZeroOk (refCount : Int) : ChildPc → Prop
  | .free pc => pc.ZeroOk refCount
  | _ => True

/-- The child has been created. -/
def created : ChildPc → Bool
  | .absent => false
  | _ => true

/-- The step here may access the child's record. -/
def touches : ChildPc → Bool
  | .absent | .dead _ => false
  | _ => true

/-- The outcomes that lead the child here. -/
def Possible (sc : Scenario) : ChildPc → Prop
  | .absent | .incRef | .load => True
  | .setLoaded ok | .upLoad ok => sc.load = .returns ok
  | .running => sc.load = .returns true
  | .dead false => sc.load = .returns false
  | .print held | .setStatus held | .setExited held => held = false ∧ sc.load ≠ .returns false
  | .closeFiles held => held = sc.exits ∧ sc.load ≠ .returns false
  | .unlockFs => sc.exits = false ∧ sc.load ≠ .returns false
  | .asserted => False
  | _ => sc.load ≠ .returns false

end ChildPc

/-- The lock of the record is held by the thread whose place says so. -/
structure LockOk (holder : Option Thread) (parent child : Bool) : Prop where
  parent : holder = some .parent ↔ parent = true
  child : holder = some .child ↔ child = true
  other : holder ≠ some .other

namespace LockOk

variable {holder : Option Thread} {parent child : Bool}

private theorem parent_eq_false (h : LockOk holder parent true) : parent = false := by
  have hl := h.child.mpr rfl
  simpa [hl] using h.parent

private theorem child_eq_false (h : LockOk holder true child) : child = false := by
  have hl := h.parent.mpr rfl
  simpa [hl] using h.child

private theorem free : LockOk none false false := ⟨by simp, by simp, by simp⟩

private theorem parentAcquire (h : LockOk none parent child) : LockOk (some .parent) true child :=
  ⟨by simp, by simpa using h.child, by simp⟩

private theorem childAcquire (h : LockOk none parent child) : LockOk (some .child) parent true :=
  ⟨by simpa using h.parent, by simp, by simp⟩

private theorem parentRelease (h : LockOk holder true child) : LockOk none false child :=
  ⟨by simp, by simp [h.child_eq_false], by simp⟩

private theorem childRelease (h : LockOk holder parent true) : LockOk none parent false :=
  ⟨by simp [h.parent_eq_false], by simp, by simp⟩

end LockOk

/-- The shared state is what the places of parent and child say. -/
structure ProcInv (sc : Scenario) (s : ProcState) : Prop where
  parent : s.parent.Possible sc
  child : s.child.Possible sc
  created : s.parent.created = s.child.created
  semaphore : s.proc.waitSema + s.parent.downs = s.child.ups sc.exits
  lock : LockOk s.proc.lock s.parent.holds s.child.holds
  ownLock : s.ownLock = if s.parent.holdsOwn then some .parent else none
  filesysLock : s.filesysLock = some .child ↔ s.child.holdsFs sc.exits = true
  children : s.children = s.parent.listed
  pid : s.parent.pidSet = true → s.proc.pid = .child
  waited : s.proc.waited = s.parent.waited
  loaded : s.proc.loaded = (s.child.reported && sc.loadOk)
  refCount : s.proc.refCount = 1 + s.child.refs - s.parent.drops - s.child.drops
  parentZero : s.parent.ZeroOk s.proc.refCount
  childZero : s.child.ZeroOk s.proc.refCount
  oneLast : s.proc.refCount = 0 → ¬ (s.parent.last = true ∧ s.child.last = true)
  record : s.record = ⟨s.parent.hasRecord,
    if s.proc.refCount = 0 ∧ s.parent.last = false ∧ s.child.last = false then 1 else 0⟩
  argv : s.argv = ⟨s.parent.hasArgv, s.record.freed + s.parent.argvFreed⟩
  cmdLine : s.cmdLine = ⟨s.parent.hasCmdLine, s.record.freed + s.parent.cmdLineFreed⟩
  useAfterFree : s.useAfterFree = false
  unset : s.child.statusSet = false → s.proc.exitStatus = -1
  status : s.proc.exitStatus = -1 ∨ s.proc.exitStatus = sc.status
  read : s.parent.statusRead = true → s.exitStatus = s.proc.exitStatus
  first : s.parent.waitReturned = false → s.results = []
  later : s.parent.waitReturned = true →
    ∃ rest, s.results = s.proc.exitStatus :: rest ∧ ∀ r ∈ rest, r = -1

namespace ProcInv

variable {sc : Scenario} {s t : ProcState}

private theorem freePc_drops (pc : FreePc) : 0 ≤ pc.drops ∧ pc.drops ≤ 1 := by
  cases pc <;> simp [FreePc.drops]

theorem parent_drops (pc : ParentPc) : 0 ≤ pc.drops ∧ pc.drops ≤ 1 := by
  unfold ParentPc.drops
  split
  · exact freePc_drops _
  all_goals decide

private theorem child_drops (pc : ChildPc) : 0 ≤ pc.drops ∧ pc.drops ≤ pc.refs ∧ pc.refs ≤ 1 := by
  cases pc with
  | free pc => exact ⟨(freePc_drops pc).1, (freePc_drops pc).2, Int.le_refl 1⟩
  | dead loaded => cases loaded <;> decide
  | _ => simp [ChildPc.drops, ChildPc.refs]

/-- A parent that dropped its reference has lowered the semaphore, or there is no child. -/
private theorem drops_of_downs {pc : ParentPc} (hc : pc.created = true) (hd : pc.downs = 0) :
    pc.drops = 0 := by
  cases pc with
  | free caller pc => cases caller <;> simp_all [ParentPc.created, ParentPc.downs]
  | tidError site => cases site <;> simp_all [ParentPc.created, ParentPc.downs, ParentPc.hasRecord]
  | returned again | lockFind again | find again =>
    cases again <;> simp_all [ParentPc.downs]
  | unlockFind again found => cases again <;> simp_all [ParentPc.downs]
  | _ => rfl

private theorem live_of_pos (h : ProcInv sc s) (hr : s.parent.hasRecord = true)
    (hpos : 0 < s.proc.refCount) : s.record.live = true := by
  rw [h.record, hr]
  simp [Allocation.live, show s.proc.refCount ≠ 0 by omega]

private theorem live_of_freePc (h : ProcInv sc s) (hr : s.parent.hasRecord = true) {pc : FreePc}
    (hlast : pc.last = true → s.parent.last = true ∨ s.child.last = true)
    (hz : pc.ZeroOk s.proc.refCount) (hd : pc.drops = 1) : s.record.live = true := by
  rw [h.record, hr]
  cases pc with
  | lock | decrement => cases hd
  | unlock zero =>
    cases zero with
    | false => simp_all [Allocation.live, FreePc.ZeroOk]
    | true => rcases hlast rfl with hl | hl <;> simp [Allocation.live, hl]
  | test | free => rcases hlast rfl with hl | hl <;> simp [Allocation.live, hl]

private theorem live_of_parent (h : ProcInv sc s) (hp : s.parent.touches = true) :
    s.record.live = true := by
  have hrefs := h.refCount
  have hchild := child_drops s.child
  have hkept : s.parent.hasRecord = true → s.parent.drops = 0 → s.record.live = true :=
    fun hr hd => h.live_of_pos hr (by omega)
  cases hpc : s.parent with
  | free caller pc =>
    rcases Int.lt_or_eq_of_le (parent_drops s.parent).2 with hd | hd
    · exact hkept (by rw [hpc]; rfl) (by have := parent_drops s.parent; omega)
    · rw [hpc] at hd
      exact h.live_of_freePc (by rw [hpc]; cases caller <;> rfl) (fun hl => .inl (by rw [hpc]; exact hl))
        (by have := h.parentZero; rwa [hpc] at this) hd
  | tidError site => rw [hpc] at hp; cases hp
  | returned again | lockFind again | find again =>
    rw [hpc] at hp hkept
    cases again with
    | false => exact hkept rfl rfl
    | true => cases hp
  | unlockFind again found =>
    rw [hpc] at hp hkept
    cases again with
    | false => exact hkept rfl rfl
    | true => cases hp
  | allocArgv | allocCmdLine | tokenize | malloc => rw [hpc] at hp; cases hp
  | _ => rw [hpc] at hkept; exact hkept rfl rfl

/-- Only the child's own step can leave the record to a parent that gave it up. -/
private theorem parent_drops_of_child (h : ProcInv sc s) (hups : s.child.ups sc.exits = 0)
    (hc : s.child.created = true) : s.parent.drops = 0 := by
  have hsema := h.semaphore
  exact drops_of_downs (h.created.trans hc) (by omega)

private theorem absent_of_not_created {pc : ChildPc} (h : pc.created = false) : pc = .absent := by
  cases pc <;> first | rfl | cases h

theorem hasRecord_of_created {pc : ParentPc} (hc : pc.created = true) :
    pc.hasRecord = true := by
  cases pc with
  | free caller pc => rfl
  | tidError site => cases site <;> simp_all [ParentPc.created, ParentPc.hasRecord]
  | _ => first | rfl | exact hc

private theorem live_of_child (h : ProcInv sc s) (hc : s.child.touches = true) :
    s.record.live = true := by
  have hrefs := h.refCount
  have hparent := parent_drops s.parent
  have hcreated : s.child.created = true := by
    cases hpc : s.child <;> rw [hpc] at hc <;> first | rfl | cases hc
  have hr := hasRecord_of_created (h.created.trans hcreated)
  have hkept : s.child.refs = 1 → s.child.drops = 0 → s.record.live = true :=
    fun _ _ => h.live_of_pos hr (by omega)
  cases hpc : s.child with
  | absent | dead _ => rw [hpc] at hc; cases hc
  | incRef =>
    have hd := h.parent_drops_of_child (by rw [hpc]; rfl) hcreated
    rw [hpc] at hrefs
    exact h.live_of_pos hr (by simp [ChildPc.refs, ChildPc.drops] at hrefs; omega)
  | free pc =>
    rw [hpc] at hkept
    rcases Int.lt_or_eq_of_le (freePc_drops pc).2 with hd | hd
    · exact hkept rfl (by have := freePc_drops pc; simp only [ChildPc.drops]; omega)
    · exact h.live_of_freePc hr (fun hl => .inr (by rw [hpc]; exact hl))
        (by have := h.childZero; rwa [hpc] at this) hd
  | _ => rw [hpc] at hkept; exact hkept rfl rfl

private theorem touch_of_live (hl : s.record.live = true) : s.touch = s := by
  simp [ProcState.touch, hl]

private theorem lockAcquire_proceeds {me : Thread} {holder holder' : Option Thread}
    (h : lockAcquire me holder = .proceeds holder') : holder' = some me := by
  cases holder with
  | none => exact (Locking.proceeds.inj h).symm
  | some _ =>
    simp only [lockAcquire] at h
    split at h <;> cases h

theorem procLock_release {me : Thread} {asserted next : ProcState → ProcState}
    (hl : s.proc.lock = some me)
    (hs : s.procLock (lockRelease me s.proc.lock) asserted next = some t) :
    next (s.modifyProc fun p => { p with lock := none }) = t := by
  simpa [ProcState.procLock, lockRelease, hl] using hs

/-- A thread that does not hold the lock takes it once it is free. -/
theorem procLock_acquire {me : Thread} {asserted next : ProcState → ProcState}
    (hl : s.proc.lock ≠ some me)
    (hs : s.procLock (lockAcquire me s.proc.lock) asserted next = some t) :
    s.proc.lock = none ∧ next (s.modifyProc fun p => { p with lock := some me }) = t := by
  cases hlock : s.proc.lock with
  | none => simpa [ProcState.procLock, lockAcquire, hlock] using hs
  | some holder =>
    have hne : holder ≠ me := fun he => hl (by rw [hlock, he])
    simp [ProcState.procLock, lockAcquire, hlock, hne] at hs

/-- A caller of `process_refcount_free` that does not hold the lock while references are counted
has not begun to free the record. -/
private theorem freePc_settled {pc : FreePc} {m : Int} (hl : pc.holds = false)
    (hz : pc.ZeroOk m) (hm : m ≠ 0) : pc.last = false ∧ ∀ n, pc.ZeroOk n := by
  cases pc with
  | lock => exact ⟨rfl, fun _ => trivial⟩
  | free => exact absurd hz hm
  | decrement | test | unlock _ => cases hl

private theorem parent_settled {pc : ParentPc} {m : Int} (hl : pc.holds = false)
    (hz : pc.ZeroOk m) (hm : m ≠ 0) : pc.last = false ∧ ∀ n, pc.ZeroOk n := by
  cases pc with
  | free caller pc => exact freePc_settled hl hz hm
  | _ => exact ⟨rfl, fun _ => trivial⟩

private theorem child_settled {pc : ChildPc} {m : Int} (hl : pc.holds = false)
    (hz : pc.ZeroOk m) (hm : m ≠ 0) : pc.last = false ∧ ∀ n, pc.ZeroOk n := by
  cases pc with
  | free pc => exact freePc_settled hl hz hm
  | _ => exact ⟨rfl, fun _ => trivial⟩

private theorem parent_kept {pc : ParentPc} (hd : pc.drops = 0) :
    pc.last = false ∧ ∀ n, pc.ZeroOk n := by
  cases pc with
  | free caller pc => cases pc <;> simp_all [ParentPc.drops, FreePc.drops, ParentPc.last,
      FreePc.last, ParentPc.ZeroOk, FreePc.ZeroOk]
  | _ => exact ⟨rfl, fun _ => trivial⟩

theorem refCount_nonneg (h : ProcInv sc s) : 0 ≤ s.proc.refCount := by
  have hrefs := h.refCount
  have hparent := parent_drops s.parent
  have hchild := child_drops s.child
  omega

private theorem record_of_pos (h : ProcInv sc s) (hpos : 0 < s.proc.refCount) :
    s.record = ⟨s.parent.hasRecord, 0⟩ := by
  rw [h.record, if_neg (by omega)]

private theorem childFree {pc : FreePc} (h : ProcInv sc s) (hpc : s.child = .free pc)
    (hs : s.processRefcountFree .child pc (fun pc s => s.atChild (.free pc))
      (·.atChild (.dead true)) (·.atChild .asserted) = some t) : ProcInv sc t := by
  have hlive := h.live_of_child
  have hnonneg := h.refCount_nonneg
  obtain ⟨pp, cp, proc, record, argv, cmdLine, ch, own, fs, es, res, uaf⟩ := s
  cases hpc
  have htouch := touch_of_live (hlive rfl)
  have hnonneg : 0 ≤ proc.refCount := hnonneg
  cases pc with
  | lock =>
    simp only [ProcState.processRefcountFree] at hs
    obtain ⟨hl, hs⟩ := procLock_acquire (by simp [h.lock.child, ChildPc.holds, FreePc.holds]) hs
    simp only [ProcState.modifyProc, htouch] at hs
    subst hs
    exact { h with lock := LockOk.childAcquire (hl ▸ h.lock) }
  | decrement =>
    have hpd := parent_drops pp
    have hrefs : proc.refCount = 1 + 1 - pp.drops - 0 := h.refCount
    have hrec := h.record_of_pos (show 0 < proc.refCount by omega)
    obtain ⟨hlast, hzero⟩ := parent_settled h.lock.parent_eq_false h.parentZero
      (show proc.refCount ≠ 0 by omega)
    simp only [ProcState.processRefcountFree, ProcState.modifyProc, htouch, Option.some.injEq] at hs
    subst hs
    exact { h with
      refCount := show proc.refCount - 1 = 1 + 1 - pp.drops - 1 by omega
      parentZero := hzero _
      childZero := trivial
      oneLast := fun _ hl => Bool.false_ne_true (hlast.symm.trans hl.1)
      record := hrec.trans (by simp [ProcState.atChild, ChildPc.last, FreePc.last]) }
  | test =>
    simp only [ProcState.processRefcountFree, htouch] at hs
    rw [if_neg (show ¬ proc.refCount < 0 by omega), Option.some.injEq] at hs
    subst hs
    by_cases h0 : proc.refCount = 0
    · simp only [h0, beq_self_eq_true]
      exact { h with childZero := show true = (proc.refCount == 0) by simp [h0] }
    · simp only [beq_false_of_ne h0]
      exact { h with
        childZero := show false = (proc.refCount == 0) by simp [h0]
        oneLast := fun h0' => absurd h0' h0
        record := (h.record_of_pos (show 0 < proc.refCount by omega)).trans
          (by simp [ProcState.atChild, h0]) }
  | unlock zero =>
    have hz : zero = (proc.refCount == 0) := h.childZero
    simp only [ProcState.processRefcountFree] at hs
    have hs := procLock_release (h.lock.child.mpr rfl) hs
    simp only [ProcState.modifyProc, htouch] at hs
    cases zero with
    | false =>
      subst hs
      exact { h with lock := h.lock.childRelease, childZero := trivial }
    | true =>
      subst hs
      exact { h with lock := h.lock.childRelease, childZero := show proc.refCount = 0 by simpa using hz.symm }
  | free =>
    have h0 : proc.refCount = 0 := h.childZero
    have hlast : pp.last = false := by simpa [ChildPc.last, FreePc.last] using h.oneLast h0
    have hrec : record = ⟨pp.hasRecord, 0⟩ := by
      have hr := h.record
      simpa [ChildPc.last, FreePc.last] using hr
    have hargv := h.argv
    have hcmd := h.cmdLine
    simp only [ProcState.processRefcountFree, ProcState.freeProcess, htouch,
      Option.some.injEq] at hs
    subst hs
    simp only [hrec] at hargv hcmd
    exact { h with
      childZero := trivial
      oneLast := fun _ hl => (by cases hl.2)
      record := by simp [ProcState.atChild, Allocation.free, hrec, h0, hlast, ChildPc.last]
      argv := by simp [ProcState.atChild, Allocation.free, hrec, hargv]; omega
      cmdLine := by simp [ProcState.atChild, Allocation.free, hrec, hcmd]; omega }

private theorem not_read_of_downs {pc : ParentPc} (h : pc.downs ≤ 1) :
    pc.statusRead = false ∧ pc.waitReturned = false := by
  cases pc with
  | free caller pc => cases caller <;> first | exact ⟨rfl, rfl⟩ | cases h with | step h => cases h
  | returned again | lockFind again | find again =>
    cases again <;> first | exact ⟨rfl, rfl⟩ | exact absurd h (by decide)
  | unlockFind again found =>
    cases again <;> first | exact ⟨rfl, rfl⟩ | simp [ParentPc.downs] at h
  | lockStatus | readStatus | unlockStatus | lockRemove | remove | unlockRemove =>
    exact absurd h (by decide)
  | _ => exact ⟨rfl, rfl⟩

private theorem childStep (h : ProcInv sc s) (hs : s.childStep sc = some t) : ProcInv sc t := by
  have hlive := h.live_of_child
  have hpd := parent_drops s.parent
  obtain ⟨pp, cp, proc, record, argv, cmdLine, ch, own, fs, es, res, uaf⟩ := s
  cases cp
  case absent | dead | asserted => cases hs
  case incRef =>
    have htouch := touch_of_live (hlive rfl)
    have hd : pp.drops = 0 := h.parent_drops_of_child rfl rfl
    have hkept := parent_kept hd
    have hrefs : proc.refCount = 1 + 0 - pp.drops - 0 := h.refCount
    have hrec := h.record_of_pos (show 0 < proc.refCount by omega)
    simp only [ProcState.childStep, ProcState.modifyProc, htouch, Option.some.injEq] at hs
    subst hs
    exact { h with
      refCount := show proc.refCount + 1 = 1 + 1 - pp.drops - 0 by omega
      parentZero := hkept.2 _
      childZero := trivial
      oneLast := fun _ hl => (by cases hl.2)
      record := hrec.trans (by simp [ProcState.atChild, show proc.refCount + 1 ≠ 0 by omega]) }
  case load =>
    have htouch := touch_of_live (hlive rfl)
    simp only [ProcState.childStep, htouch] at hs
    split at hs
    · next ok hload =>
      cases hs
      exact { h with child := hload }
    · next hload =>
      -- the fault leaves `loaded` and the semaphore as they were
      have hexits : sc.exits = true := by simp [Scenario.exits, hload]
      have hok : sc.loadOk = false := by simp [Scenario.loadOk, hload]
      have hsema : proc.waitSema + pp.downs = 0 := h.semaphore
      have hl : proc.loaded = false := h.loaded
      split at hs
      · next holder hlock =>
        cases hs
        exact { h with
          child := show sc.load ≠ .returns false by simp [hload]
          semaphore := hsema.trans (by simp [ProcState.atChild, ChildPc.ups, hexits])
          filesysLock := iff_of_true (lockAcquire_proceeds hlock) hexits
          loaded := hl.trans (by simp [hok]) }
      · cases hs
  case setLoaded ok =>
    have htouch := touch_of_live (hlive rfl)
    have hload : sc.load = .returns ok := h.child
    simp only [ProcState.childStep, ProcState.modifyProc, htouch, Option.some.injEq] at hs
    subst hs
    exact { h with loaded := show ok = (true && sc.loadOk) by cases ok <;> simp [Scenario.loadOk, hload] }
  case upLoad ok =>
    have htouch := touch_of_live (hlive rfl)
    have hsema : proc.waitSema + pp.downs = 0 := h.semaphore
    have hload : sc.load = .returns ok := h.child
    have hexits := Scenario.exits_of_returns hload
    simp only [ProcState.childStep, ProcState.semaUp, ProcState.modifyProc, htouch,
      Option.some.injEq] at hs
    subst hs
    cases ok with
    | false => exact { h with child := hload, semaphore := show _ + 1 + pp.downs = 1 by omega }
    | true =>
      exact { h with
        child := hload
        semaphore := show _ + 1 + pp.downs = if sc.exits then 0 else 1 by simp [hexits]; omega }
  case running =>
    have hload : sc.load = .returns true := h.child
    have hfs : ¬ fs = some .child := fun hl => (by cases h.filesysLock.mp hl)
    cases hs
    exact { h with
      child := show sc.load ≠ .returns false by simp [hload]
      filesysLock := iff_of_false hfs (by simp [ProcState.atChild, ChildPc.holdsFs, Scenario.exits_of_returns hload]) }
  case tryPrint =>
    have htouch := touch_of_live (hlive rfl)
    simp only [ProcState.childStep, ProcState.tryProcLock, ProcState.modifyProc, htouch,
      Option.some.injEq] at hs
    split at hs
    · next hl =>
      subst hs
      exact { h with
        child := ⟨rfl, h.child⟩
        lock := LockOk.childAcquire (hl ▸ h.lock) }
    · next hl => cases h.lock.child.mp hl
    · next holder hne hl =>
      subst hs
      exact { h with }
  case print held =>
    have htouch := touch_of_live (hlive rfl)
    obtain ⟨rfl, hok⟩ := h.child
    simp only [ProcState.childStep, htouch, Option.some.injEq] at hs
    subst hs
    exact { h with child := hok }
  case closeFiles held =>
    have htouch := touch_of_live (hlive rfl)
    obtain ⟨rfl, hok⟩ := h.child
    have hfs : fs = some .child := h.filesysLock.mpr rfl
    simp only [ProcState.childStep, htouch, Option.some.injEq] at hs
    subst hs
    cases hexits : sc.exits with
    | true => exact { h with child := hok, filesysLock := iff_of_true hfs hexits }
    | false => exact { h with child := ⟨hexits, hok⟩ }
  case unlockPrint | unlockPublish =>
    have htouch := touch_of_live (hlive rfl)
    simp only [ProcState.childStep] at hs
    have hs := procLock_release (h.lock.child.mpr rfl) hs
    simp only [ProcState.modifyProc, htouch] at hs
    subst hs
    exact { h with lock := h.lock.childRelease }
  case lockFs =>
    simp only [ProcState.childStep] at hs
    split at hs
    · next hl =>
      cases hs
      exact { h with
        child := ⟨(h.filesysLock.mp hl).symm, h.child⟩
        filesysLock := iff_of_true hl rfl }
    · next hne =>
      have hexits : sc.exits = false := by
        simpa [ChildPc.holdsFs] using mt h.filesysLock.mpr hne
      split at hs
      · next hl =>
        cases hs
        exact { h with
          child := ⟨hexits.symm, h.child⟩
          filesysLock := iff_of_true (lockAcquire_proceeds hl) rfl }
      · cases hs
  case unlockFs =>
    have hfs : fs = some .child := h.filesysLock.mpr rfl
    obtain ⟨hexits, hok⟩ := h.child
    simp only [ProcState.childStep, hfs, lockRelease, if_true, Option.some.injEq] at hs
    subst hs
    exact { h with
      child := hok
      filesysLock := iff_of_false nofun (by simp [ProcState.atChild, ChildPc.holdsFs, hexits]) }
  case tryPublish =>
    have htouch := touch_of_live (hlive rfl)
    simp only [ProcState.childStep, ProcState.tryProcLock, ProcState.modifyProc, htouch,
      Option.some.injEq] at hs
    split at hs
    · next hl =>
      subst hs
      exact { h with
        child := ⟨rfl, h.child⟩
        lock := LockOk.childAcquire (hl ▸ h.lock) }
    · next hl => cases h.lock.child.mp hl
    · next holder hne hl =>
      subst hs
      exact { h with unset := nofun }
  case setStatus held =>
    have htouch := touch_of_live (hlive rfl)
    have hsema : proc.waitSema + pp.downs = if sc.exits then 0 else 1 := h.semaphore
    obtain ⟨hread, hret⟩ := not_read_of_downs (show pp.downs ≤ 1 by split at hsema <;> omega)
    simp only [ProcState.childStep, ProcState.modifyProc, htouch, Option.some.injEq] at hs
    subst hs
    exact { h with
      unset := nofun
      status := .inr rfl
      read := fun hp => absurd hp (by simp [ProcState.atChild, hread])
      later := fun hp => absurd hp (by simp [ProcState.atChild, hret]) }
  case setExited held =>
    have htouch := touch_of_live (hlive rfl)
    obtain ⟨rfl, hok⟩ := h.child
    simp only [ProcState.childStep, ProcState.modifyProc, htouch, Option.some.injEq] at hs
    subst hs
    exact { h with child := hok }
  case upExit =>
    have htouch := touch_of_live (hlive rfl)
    have hsema : proc.waitSema + pp.downs = if sc.exits then 0 else 1 := h.semaphore
    simp only [ProcState.childStep, ProcState.semaUp, ProcState.modifyProc, htouch,
      Option.some.injEq] at hs
    subst hs
    exact { h with
      semaphore := show _ + 1 + pp.downs = if sc.exits then 1 else 2 by
        split at hsema <;> simp_all
        omega }
  case destroySpt =>
    have htouch := touch_of_live (hlive rfl)
    simp only [ProcState.childStep, htouch, Option.some.injEq] at hs
    subst hs
    exact { h with }
  case free pc => exact h.childFree rfl hs

private theorem parentLock_acquire {next : ProcState → ProcState} (hl : s.ownLock = none)
    (hs : s.parentLock (lockAcquire .parent s.ownLock) next = some t) :
    next { s with ownLock := some .parent } = t := by
  simpa [ProcState.parentLock, lockAcquire, hl] using hs

private theorem parentLock_release {next : ProcState → ProcState} (hl : s.ownLock = some .parent)
    (hs : s.parentLock (lockRelease .parent s.ownLock) next = some t) :
    next { s with ownLock := none } = t := by
  simpa [ProcState.parentLock, lockRelease, hl] using hs

/-- The value `process_wait` returns is the exit status of the record. -/
private theorem waitReturns {pc : FreePc} (h : ProcInv sc s) (hpc : s.parent = .free .wait pc) :
    ∃ rest, s.results ++ [s.exitStatus] = s.proc.exitStatus :: rest ∧ ∀ r ∈ rest, r = -1 := by
  have hread : s.exitStatus = s.proc.exitStatus := h.read (by rw [hpc]; rfl)
  have hfirst : s.results = [] := h.first (by rw [hpc]; rfl)
  exact ⟨[], by simp [hread, hfirst], by simp⟩

private theorem parentFree {caller : FreeCaller} {pc : FreePc} (h : ProcInv sc s)
    (hpc : s.parent = .free caller pc)
    (hs : s.processRefcountFree .parent pc (fun pc s => s.atParent (.free caller pc))
      (ProcState.afterFree caller) (·.atParent .asserted) = some t) : ProcInv sc t := by
  have hlive := h.live_of_parent
  have hnonneg := h.refCount_nonneg
  obtain ⟨pp, cp, proc, record, argv, cmdLine, ch, own, fs, es, res, uaf⟩ := s
  cases hpc
  have htouch := touch_of_live (hlive rfl)
  have hnonneg : 0 ≤ proc.refCount := hnonneg
  cases pc with
  | lock =>
    simp only [ProcState.processRefcountFree] at hs
    obtain ⟨hl, hs⟩ := procLock_acquire (by simp [h.lock.parent, ParentPc.holds, FreePc.holds]) hs
    simp only [ProcState.modifyProc, htouch] at hs
    subst hs
    cases caller <;> exact { h with lock := LockOk.parentAcquire (hl ▸ h.lock) }
  | decrement =>
    have hcd := child_drops cp
    have hrefs : proc.refCount = 1 + cp.refs - 0 - cp.drops := h.refCount
    have hrec := h.record_of_pos (show 0 < proc.refCount by omega)
    obtain ⟨hlast, hzero⟩ := child_settled h.lock.child_eq_false h.childZero
      (show proc.refCount ≠ 0 by omega)
    simp only [ProcState.processRefcountFree, ProcState.modifyProc, htouch, Option.some.injEq] at hs
    subst hs
    cases caller <;> exact { h with
      refCount := show proc.refCount - 1 = 1 + cp.refs - 1 - cp.drops by omega
      parentZero := trivial
      childZero := hzero _
      oneLast := fun _ hl => Bool.false_ne_true (hlast.symm.trans hl.2)
      record := hrec.trans (by simp [ProcState.atParent, ParentPc.last, FreePc.last,
        ParentPc.hasRecord]) }
  | test =>
    simp only [ProcState.processRefcountFree, htouch] at hs
    rw [if_neg (show ¬ proc.refCount < 0 by omega), Option.some.injEq] at hs
    subst hs
    by_cases h0 : proc.refCount = 0
    · simp only [h0, beq_self_eq_true]
      cases caller <;> exact { h with parentZero := show true = (proc.refCount == 0) by simp [h0] }
    · simp only [beq_false_of_ne h0]
      have hrec := h.record_of_pos (show 0 < proc.refCount by omega)
      cases caller <;> exact { h with
        parentZero := show false = (proc.refCount == 0) by simp [h0]
        oneLast := fun h0' => absurd h0' h0
        record := hrec.trans (by simp [ProcState.atParent, h0, ParentPc.hasRecord]) }
  | unlock zero =>
    have hz : zero = (proc.refCount == 0) := h.parentZero
    simp only [ProcState.processRefcountFree] at hs
    have hs := procLock_release (h.lock.parent.mpr rfl) hs
    simp only [ProcState.modifyProc, htouch] at hs
    cases zero with
    | false =>
      subst hs
      cases caller with
      | create | load => exact { h with lock := h.lock.parentRelease, parentZero := trivial }
      | wait =>
        have hret := h.waitReturns rfl
        exact { h with
          lock := h.lock.parentRelease
          parentZero := trivial
          read := nofun
          first := nofun
          later := fun _ => hret }
    | true =>
      subst hs
      cases caller <;> exact { h with
        lock := h.lock.parentRelease
        parentZero := show proc.refCount = 0 by simpa using hz.symm }
  | free =>
    have h0 : proc.refCount = 0 := h.parentZero
    have hlast : cp.last = false := by simpa [ParentPc.last, FreePc.last] using h.oneLast h0
    have hrec : record = ⟨true, 0⟩ := by
      have hr := h.record
      simpa [ParentPc.last, FreePc.last, ParentPc.hasRecord] using hr
    have hargv : argv = ⟨true, record.freed + 0⟩ := h.argv
    have hcmd : cmdLine = ⟨true, record.freed + 0⟩ := h.cmdLine
    simp only [ProcState.processRefcountFree, ProcState.freeProcess, htouch,
      Option.some.injEq] at hs
    subst hs
    cases hrec
    cases hargv
    cases hcmd
    have hfreed : (if proc.refCount = 0 ∧ false = false ∧ cp.last = false then 1 else 0) = 1 := by
      simp [h0, hlast]
    cases caller with
    | create | load =>
      exact { h with
        parentZero := trivial
        oneLast := fun _ hl => (by cases hl.1)
        record := congrArg (Allocation.mk true) hfreed.symm
        argv := rfl
        cmdLine := rfl }
    | wait =>
      have hret := h.waitReturns rfl
      exact { h with
        parentZero := trivial
        oneLast := fun _ hl => (by cases hl.1)
        record := congrArg (Allocation.mk true) hfreed.symm
        argv := rfl
        cmdLine := rfl
        read := nofun
        first := nofun
        later := fun _ => hret }

/-- Until the record exists there is no child, and nothing has been freed through the record. -/
theorem before_record (h : ProcInv sc s) (hr : s.parent.hasRecord = false) :
    s.child = .absent ∧ s.proc.refCount = 1 ∧ s.record.freed = 0 := by
  have hcreated : s.child.created = false := by
    rw [← h.created, ← Bool.not_eq_true]
    intro hc
    exact absurd (hasRecord_of_created hc) (by simp [hr])
  have habsent := absent_of_not_created hcreated
  have hd : s.parent.drops = 0 := by
    cases hpc : s.parent with
    | tidError site => rw [hpc] at hr; cases site <;> first | rfl | cases hr
    | allocArgv | allocCmdLine | tokenize | malloc => rfl
    | _ => rw [hpc] at hr; cases hr
  have hrefs := h.refCount
  rw [habsent, hd] at hrefs
  have hone : s.proc.refCount = 1 := hrefs
  exact ⟨habsent, hone, by rw [h.record]; simp [hone]⟩

private theorem executeStep (h : ProcInv sc s) (hs : s.parentStep sc = some t)
    (hr : s.parent.hasRecord = false) : ProcInv sc t := by
  obtain ⟨habsent, hone, hfreed⟩ := h.before_record hr
  obtain ⟨pp, cp, proc, record, argv, cmdLine, ch, own, fs, es, res, uaf⟩ := s
  have hrec := h.record
  have hargv := h.argv
  have hcmd := h.cmdLine
  simp only at habsent hone hfreed hrec hargv hcmd
  subst habsent
  cases pp
  case allocArgv =>
    simp only [ProcState.parentStep] at hs
    split at hs <;> cases hs
    · next hok => exact { h with parent := hok, argv := by simp [ProcState.atParent, hfreed]; rfl }
    · next hok => exact { h with parent := by simp [ProcState.atParent, ParentPc.Possible,
        Scenario.creates, hok] }
  case allocCmdLine =>
    have hp : sc.argvOk = true := h.parent
    simp only [ProcState.parentStep] at hs
    split at hs <;> cases hs
    · next hok =>
      exact { h with
        parent := ⟨hp, hok⟩
        cmdLine := by simp [ProcState.atParent, hfreed]; rfl }
    · next hok =>
      exact { h with
        parent := by simp [ProcState.atParent, ParentPc.Possible, Scenario.creates, hok]
        argv := by rw [hargv]; rfl }
  case tokenize =>
    obtain ⟨hp1, hp2⟩ := h.parent
    simp only [ProcState.parentStep] at hs
    split at hs <;> cases hs
    · next hok => exact { h with parent := ⟨hp1, hp2, hok⟩ }
    · next hok =>
      exact { h with
        parent := by simp [ProcState.atParent, ParentPc.Possible, Scenario.creates, hok]
        argv := by rw [hargv]; rfl
        cmdLine := by rw [hcmd]; rfl }
  case malloc =>
    obtain ⟨hp1, hp2, hp3⟩ := h.parent
    simp only [ProcState.parentStep] at hs
    split at hs <;> cases hs
    · next hok =>
      rw [hfreed] at hargv hcmd
      exact { h with
        parent := ⟨hp1, hp2, hp3, hok⟩
        semaphore := rfl
        lock := .free
        waited := rfl
        refCount := rfl
        childZero := trivial
        oneLast := nofun
        pid := nofun
        loaded := rfl
        unset := fun _ => rfl
        status := .inl rfl
        read := nofun
        later := nofun
        record := rfl
        argv := hargv
        cmdLine := hcmd }
    · next hok =>
      exact { h with
        parent := by simp [ProcState.atParent, ParentPc.Possible, Scenario.creates, hok]
        argv := by rw [hargv]; rfl
        cmdLine := by rw [hcmd]; rfl }
  case tidError => cases hs
  all_goals cases hr

private theorem reported_of_ups (pc : ChildPc) (exits : Bool) (h : 0 < pc.ups exits) :
    pc.reported = true := by
  cases pc <;> first | rfl | cases h

private theorem parentStep (h : ProcInv sc s) (hs : s.parentStep sc = some t) : ProcInv sc t := by
  have hlive := h.live_of_parent
  obtain ⟨pp, cp, proc, record, argv, cmdLine, ch, own, fs, es, res, uaf⟩ := s
  cases pp
  case allocArgv | allocCmdLine | tokenize | malloc => exact h.executeStep hs rfl
  case create =>
    obtain ⟨h1, h2, h3, h4⟩ := h.parent
    obtain rfl : cp = .absent := absent_of_not_created h.created.symm
    simp only [ProcState.parentStep] at hs
    split at hs <;> cases hs
    · next hok =>
      exact { h with
        parent := by simp [ProcState.atParent, ParentPc.Possible, Scenario.creates, *]
        created := rfl }
    · next hok =>
      exact { h with
        parent := by simp [ProcState.atParent, ParentPc.Possible, Scenario.creates, hok] }
  case setPid =>
    have htouch := touch_of_live (hlive rfl)
    simp only [ProcState.parentStep, ProcState.modifyProc, htouch, Option.some.injEq] at hs
    subst hs
    exact { h with pid := fun _ => rfl }
  case lockPush | lockDrop | lockRemove =>
    simp only [ProcState.parentStep] at hs
    have hs := parentLock_acquire h.ownLock hs
    subst hs
    exact { h with ownLock := rfl }
  case push | drop | remove =>
    have htouch := touch_of_live (hlive rfl)
    simp only [ProcState.parentStep, htouch, Option.some.injEq] at hs
    subst hs
    exact { h with children := rfl }
  case unlockPush | unlockDrop | unlockRemove =>
    simp only [ProcState.parentStep] at hs
    have hs := parentLock_release h.ownLock hs
    subst hs
    exact { h with ownLock := rfl }
  case downLoad =>
    have htouch := touch_of_live (hlive rfl)
    have hsema : proc.waitSema + 0 = cp.ups sc.exits := h.semaphore
    simp only [ProcState.parentStep, ProcState.semaDown, ProcState.modifyProc, htouch] at hs
    split at hs
    · cases hs
    · next hne =>
      cases hs
      exact { h with semaphore := show proc.waitSema - 1 + 1 = cp.ups sc.exits by omega }
  case testLoaded =>
    have htouch := touch_of_live (hlive rfl)
    have hsema : proc.waitSema + 1 = cp.ups sc.exits := h.semaphore
    have hl : proc.loaded = sc.loadOk := by
      rw [h.loaded, reported_of_ups cp sc.exits (by omega), Bool.true_and]
    have hp : sc.creates = true := h.parent
    simp only [ProcState.parentStep, htouch, Option.some.injEq] at hs
    subst hs
    cases hok : proc.loaded with
    | false | true => exact { h with parent := ⟨hp, hl.symm.trans hok⟩ }
  case free caller pc => exact h.parentFree rfl hs
  case tidError | asserted => cases hs
  case returned again =>
    cases hs
    cases again <;> exact { h with }
  case lockFind again =>
    simp only [ProcState.parentStep] at hs
    have hs := parentLock_acquire h.ownLock hs
    subst hs
    cases again <;> exact { h with ownLock := rfl }
  case find again =>
    obtain rfl : ch = !again := h.children
    simp only [ProcState.parentStep] at hs
    cases again with
    | false =>
      have htouch := touch_of_live (hlive rfl)
      have hpid : proc.pid = .child := h.pid rfl
      simp only [Bool.not_false, if_true, Option.some.injEq] at hs htouch
      rw [htouch] at hs
      subst hs
      exact { h with parent := ⟨by simp [hpid], h.parent⟩ }
    | true =>
      cases hs
      exact { h with parent := ⟨rfl, h.parent⟩ }
  case unlockFind again found =>
    obtain ⟨hfound, hok⟩ := h.parent
    cases again with
    | false =>
      cases hfound
      simp only [ProcState.parentStep, Bool.not_false] at hs
      have hs := parentLock_release h.ownLock hs
      subst hs
      exact { h with parent := hok, ownLock := rfl }
    | true =>
      cases hfound
      simp only [ProcState.parentStep, Bool.not_true] at hs
      have hs := parentLock_release h.ownLock hs
      subst hs
      obtain ⟨rest, hres, hrest⟩ := h.later rfl
      simp only at hres
      exact { h with
        parent := hok
        ownLock := rfl
        first := nofun
        later := fun _ => ⟨rest ++ [-1], by simp [ProcState.waitFails, ProcState.atParent, hres],
          by simpa [or_imp, forall_and] using hrest⟩ }
  case lockWaited | lockStatus =>
    have htouch := touch_of_live (hlive rfl)
    simp only [ProcState.parentStep] at hs
    obtain ⟨hl, hs⟩ := procLock_acquire (by simp [h.lock.parent, ParentPc.holds]) hs
    simp only [ProcState.modifyProc, htouch] at hs
    subst hs
    exact { h with lock := LockOk.parentAcquire (hl ▸ h.lock) }
  case testWaited =>
    have htouch := touch_of_live (hlive rfl)
    have hw : proc.waited = false := h.waited
    simp only [ProcState.parentStep, htouch, hw, Bool.false_eq_true, if_false,
      Option.some.injEq] at hs
    subst hs
    exact { h with }
  case unlockAgain => exact h.parent.elim
  case setWaited =>
    have htouch := touch_of_live (hlive rfl)
    simp only [ProcState.parentStep, ProcState.modifyProc, htouch, Option.some.injEq] at hs
    subst hs
    exact { h with waited := rfl }
  case unlockWaited | unlockStatus =>
    have htouch := touch_of_live (hlive rfl)
    simp only [ProcState.parentStep] at hs
    have hs := procLock_release (h.lock.parent.mpr rfl) hs
    simp only [ProcState.modifyProc, htouch] at hs
    subst hs
    exact { h with lock := h.lock.parentRelease }
  case downExit =>
    have htouch := touch_of_live (hlive rfl)
    have hsema : proc.waitSema + 1 = cp.ups sc.exits := h.semaphore
    simp only [ProcState.parentStep, ProcState.semaDown, ProcState.modifyProc, htouch] at hs
    split at hs
    · cases hs
    · next hne =>
      cases hs
      exact { h with semaphore := show proc.waitSema - 1 + 2 = cp.ups sc.exits by omega }
  case readStatus =>
    have htouch := touch_of_live (hlive rfl)
    simp only [ProcState.parentStep, htouch, Option.some.injEq] at hs
    subst hs
    exact { h with read := fun _ => rfl }

private theorem otherStep (h : ProcInv sc s) (hs : s.otherStep = some t) : ProcInv sc t := by
  have hfs := h.filesysLock
  simp only [ProcState.otherStep] at hs
  split at hs
  · next hl =>
    cases hs
    exact { h with filesysLock := iff_of_false nofun (by simpa [hl] using hfs) }
  · next hl =>
    cases hs
    exact { h with filesysLock := iff_of_false nofun (by simpa [hl] using hfs) }
  · cases hs

theorem step {th : Thread} (h : ProcInv sc s) (hs : s.step sc th = some t) : ProcInv sc t := by
  cases th with
  | parent => exact h.parentStep hs
  | child => exact h.childStep hs
  | other => exact h.otherStep hs

theorem init (sc : Scenario) : ProcInv sc .init where
  parent := trivial
  child := trivial
  created := rfl
  semaphore := rfl
  lock := .free
  ownLock := rfl
  filesysLock := iff_of_false nofun nofun
  children := rfl
  pid := nofun
  waited := rfl
  loaded := rfl
  refCount := rfl
  parentZero := trivial
  childZero := trivial
  oneLast := nofun
  record := rfl
  argv := rfl
  cmdLine := rfl
  useAfterFree := rfl
  unset _ := rfl
  status := .inl rfl
  read := nofun
  first _ := rfl
  later := nofun

end ProcInv

theorem procInv_run {sc : Scenario} {schedule : List Thread} {t : ProcState}
    (hr : run (ProcState.step sc) .init schedule = some t) : ProcInv sc t :=
  run_preserves (P := ProcInv sc) (fun _ _ _ h hs => h.step hs) (.init sc) hr

end Pintos.Userprog

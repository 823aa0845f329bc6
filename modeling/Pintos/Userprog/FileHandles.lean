import Pintos.Userprog.Syscall
import Pintos.Vm.MapCalls

/-!
# File handles are closed exactly once

A handle is made by `syscall_open`, by `mmap_map` or for the executable of a process. It has one
holder from then on until this holder closes it: the descriptor by `syscall_close`, the mapping by
`mmap_unmap`, and all of them at the latest when the process exits. In the model a handle that has
been closed cannot be used and cannot be closed again: the kernel stops there.
Source `userprog/syscall.c:137–375`, `userprog/process.c:287–302`,
`vm/mmap.c:48–161`.
-/

namespace Pintos.Userprog

open Pintos.Base Pintos.Threads Pintos.Vm Pintos.Filesys

variable {s t : VmState}

/-- The operations of the system, with the calls that use a handle. What `syscall_read` and
`syscall_write` do to the pages of their buffer are operations of their own. -/
inductive FileOp where
  | op (op : Vm.Op)
  | read (p : Pid) (fd : Int) (size : Nat)
  | write (p : Pid) (fd : Int) (buffer : Nat → UInt8) (size : Nat)
  | seek (p : Pid) (fd : Int) (position : Nat)

/-- A call of a running process on the handle of a descriptor; without one it returns `-1`. -/
def withFile (p : Pid) (fd : Int) (use : FileAddr → Option VmState) (s : VmState) :
    Option VmState :=
  if (s.pagedir p).isSome then
    match fdFile s p fd with
    | none => some s
    | some f => use f
  else none

/-- One operation. -/
def fileStep (s : VmState) : FileOp → Option VmState
  | .op op => Vm.step s op
  | .read p fd size => withFile p fd (fun f => (fileRead f size s).map fun r => r.2.2) s
  | .write p fd buffer size => withFile p fd (fun f => (fileWrite f buffer size s).map Prod.snd) s
  | .seek p fd position => withFile p fd (fun f => fileSeek f position s) s

private theorem holdersKept_fileWrite {f : FileAddr} {buffer : Nat → UInt8} {size n : Nat}
    (h : fileWrite f buffer size s = some (n, t)) : SameMemory s t ∧ HoldersKept s t := by
  unfold fileWrite at h
  split at h
  · cases h
  · next file hfile =>
    obtain ⟨⟨n, u⟩, hw, h⟩ := Option.map_eq_some_iff.mp h
    cases h
    have hu : u.file f = some file := by
      obtain ⟨file', -, hw⟩ := Option.map_eq_some_iff.mp hw
      cases hw
      exact hfile
    have hset : HandlesKept u (setFile u f { file with pos := file.pos + n }) :=
      handlesKept_setFile hu rfl rfl
    exact ⟨(sameMemory_fileWriteAt hw).trans (sameMemory_setFile u f _),
      (holdersKept_fileWriteAt hw).trans (hset.holders fun _ => rfl)⟩

private theorem orderly_fileStep {op : FileOp} (h : Orderly none s) (hs : fileStep s op = some t) :
    Orderly none t := by
  have hwith : ∀ p fd use, withFile p fd use s = some t →
      (∀ f, use f = some t → SameMemory s t ∧ HoldersKept s t) → Orderly none t := by
    intro p fd use hw huse
    unfold withFile at hw
    split at hw
    · split at hw
      · cases hw
        exact h
      · obtain ⟨hm, hk⟩ := huse _ hw
        exact h.kept hm hk
    · cases hw
  have hpages : SameMemory s t → ∀ q, (t.pagedir q).isSome = (s.pagedir q).isSome :=
    fun hm q => by rw [hm.pagedir]
  cases op with
  | op op => exact h.step hs
  | read p fd size =>
    refine hwith p fd _ hs fun f hf => ?_
    obtain ⟨⟨n, bytes, _⟩, hread, rfl⟩ := Option.map_eq_some_iff.mp hf
    obtain ⟨hm, hk, -⟩ := fileRead_quiet hread
    exact ⟨hm, hk.holders (hpages hm)⟩
  | write p fd buffer size =>
    refine hwith p fd _ hs fun f hf => ?_
    obtain ⟨⟨n, _⟩, hwrite, rfl⟩ := Option.map_eq_some_iff.mp hf
    exact holdersKept_fileWrite hwrite
  | seek p fd position =>
    refine hwith p fd _ hs fun f hf => ?_
    obtain ⟨hm, hk, -⟩ := fileSeek_quiet hf
    exact ⟨hm, hk.holders (hpages hm)⟩

/-- A handle is open exactly while it is held, by one holder; descriptors are in range; and a page
that is to be read from a file has a handle that is open. -/
structure HandlesOwned (s : VmState) : Prop where
  held : ∀ f, (s.file f).isSome = true ↔ ∃ k, Holds none s k f
  once : ∀ k k' f, Holds none s k f → Holds none s k' f → k = k'
  range : ∀ p fd f, s.fdTable p fd = some f → 2 ≤ fd ∧ fd < MAX_FD_COUNT
  backing : ∀ p i e, i ∈ s.spt p → s.spte i = some e → e.type = .file →
    ∃ f, e.file = some f ∧ (s.file f).isSome

/-- The calls of a running process close what they have to, and nothing else: `syscall_open` that
gives out no descriptor leaves no handle, `syscall_close` and `mmap_unmap` close one handle or
none, and the end of the process closes all that it holds. -/
structure ClosesOnce (s : VmState) : Prop where
  opening : ∀ p inode, (s.pagedir p).isSome → ∃ t, syscallOpen p inode s = some t ∧
    (t.fdTable = s.fdTable → ∀ g, (t.file g).isSome = (s.file g).isSome)
  close : ∀ p fd, (s.pagedir p).isSome → ∃ t, syscallClose p fd s = some t ∧
    ∀ g, (t.file g).isSome = true ↔ (s.file g).isSome = true ∧ fdFile s p fd ≠ some g
  unmap : ∀ p mapid, (s.pagedir p).isSome → ∃ t, mmapUnmap p mapid s = some t ∧
    ∀ g, (t.file g).isSome = true ↔ (s.file g).isSome = true ∧
      ((s.mmapList p).find? fun m => (m.mapid : Int) == mapid).map MmapEntry.file ≠ some g
  exit : ∀ p, (s.pagedir p).isSome → ∃ t, exitProcess p s = some t ∧
    ∀ g, (t.file g).isSome = true ↔ (s.file g).isSome = true ∧ ∀ k, ¬ Holds none s (p, k) g

private theorem handlesOwned_of_orderly (h : Orderly none s) : HandlesOwned s where
  held := fun f => ⟨h.files.owned.held f, fun ⟨k, hk⟩ => h.files.owned.alive k f hk⟩
  once := h.files.owned.unique
  range := fun p => (h.files.tables p).range
  backing := by
    intro p i e hi he ht
    have hp := h.consistent.live p i hi
    obtain ⟨f, hf, hback⟩ := h.pages.backed p i e (by simp) hi he ht
    refine ⟨f, hf, ?_⟩
    rcases hback with hex | ⟨m, hm, hmf, -⟩
    · exact h.files.isSome (k := .executable) ⟨hp, by simp, hex⟩
    · exact h.files.isSome (k := .mapping m) ⟨hp, hm, hmf⟩

private theorem closesOnce_of_orderly (h : Orderly none s) : ClosesOnce s where
  opening := fun p inode hp => by
    obtain ⟨t, ht, -, hsame⟩ := h.syscallOpen_total hp inode
    exact ⟨t, ht, hsame⟩
  close := fun p fd hp => by
    obtain ⟨t, ht, -, hfile⟩ := h.syscallClose_total hp fd
    exact ⟨t, ht, fun g => by simp [hfile, fdFile, and_assoc]⟩
  unmap := fun p mapid hp => by
    obtain ⟨t, ht, -, -, hfile⟩ := h.mmapUnmap_total hp mapid
    exact ⟨t, ht, hfile⟩
  exit := fun p hp => by
    obtain ⟨t, ht, ho, hdead, hother⟩ := h.exitProcess_total hp
    refine ⟨t, ht, fun g => ?_⟩
    have hown := (handlesOwned_of_orderly h).held g
    rw [(handlesOwned_of_orderly ho).held g]
    constructor
    · rintro ⟨⟨q, k⟩, hk⟩
      have hq : q ≠ p := by
        rintro rfl
        simpa [hdead] using hk.isLive
      have hks : Holds none s (q, k) g := by
        rw [Holds, ← hother q hq]
        exact hk
      exact ⟨hown.mpr ⟨_, hks⟩, fun k' hk' =>
        hq (congrArg Prod.fst (h.files.owned.unique _ _ g hks hk'))⟩
    · rintro ⟨hopen, hnot⟩
      obtain ⟨⟨q, k⟩, hk⟩ := hown.mp hopen
      have hq : q ≠ p := by
        rintro rfl
        exact hnot k hk
      refine ⟨(q, k), ?_⟩
      rw [Holds, hother q hq]
      exact hk

/-- In every state that a sequence of operations reaches, each handle has the one holder that is
going to close it, and whoever closes a handle can do so. No inode denies more writes at the start
than it is open. -/
theorem handles_closed_once {pages slots : Nat} {mem : KPage → PageData}
    {device : Nat → SectorData} {inode : InodeNo → Inode} {heap : Nat → Option Nat}
    {ops : List FileOp} (hcounts : ∀ n, (inode n).denyWriteCnt ≤ (inode n).openCnt)
    (hr : run fileStep (VmState.init pages slots mem device inode heap) ops = some s) :
    HandlesOwned s ∧ ClosesOnce s := by
  have ho : Orderly none s := run_preserves (fun _ _ _ h hs => orderly_fileStep h hs)
    (orderly_init pages slots mem device heap hcounts) hr
  exact ⟨handlesOwned_of_orderly ho, closesOnce_of_orderly ho⟩

/-- A process opens a file twice, maps it, uses and closes one of the descriptors, and has three
handles left: when it exits, they are closed. -/
theorem handles_closed_once_mapped :
    ∃ s t, run fileStep twoPageFiles [.op (.exec 0 (some 0) .clock),
        .op (.call 0 (.openFile (some 1))), .op (.call 0 (.openFile (some 1))),
        .op (.call 0 (.mmapMap 2 0x10000000)), .read 0 2 100, .seek 0 3 5,
        .write 0 2 (fun _ => 1) 9, .op (.call 0 (.close 2))] = some s ∧
      (s.fdTable 0 3).isSome = true ∧ (s.mmapList 0).length = 1 ∧ exitProcess 0 s = some t ∧
      ∀ k f, Holds none s (0, k) f → t.file f = none := by
  obtain ⟨s, hs, hstate⟩ := run_reaches fileStep twoPageFiles [.op (.exec 0 (some 0) .clock),
    .op (.call 0 (.openFile (some 1))), .op (.call 0 (.openFile (some 1))),
    .op (.call 0 (.mmapMap 2 0x10000000)), .read 0 2 100, .seek 0 3 5, .write 0 2 (fun _ => 1) 9,
    .op (.call 0 (.close 2))]
    (fun s => (s.pagedir 0).isSome && ((s.fdTable 0 3).isSome && (s.mmapList 0).length == 1))
    (by decide +kernel)
  simp only [Bool.and_eq_true, beq_iff_eq] at hstate
  obtain ⟨-, hcloses⟩ := handles_closed_once counts_twoPageFiles hs
  obtain ⟨t, ht, hfile⟩ := hcloses.exit 0 hstate.1
  refine ⟨s, t, hs, hstate.2.1, hstate.2.2, ht, fun k f hk => ?_⟩
  rw [← Option.not_isSome_iff_eq_none]
  exact fun hopen => ((hfile f).mp hopen).2 k hk

end Pintos.Userprog

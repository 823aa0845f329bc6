import Pintos.Vm.State

/-!
# Open files

`struct file` handles over the inodes: opening, closing, write denial and transfers. Only the
handle table, the inodes and the allocator's answers change; `SameMemory` states once what
all of these functions leave alone. Source `filesys/file.c:1–168`,
`filesys/inode.c:144–186,320–345`.
-/

namespace Pintos.Vm

variable {f : FileAddr} {o : Option FileAddr}

/-- Two states agree on every object of the memory system: entries, frames, page directories,
memory, user pool and swap. -/
structure SameMemory (s t : VmState) : Prop where
  spte : t.spte = s.spte
  frame : t.frame = s.frame
  frameTable : t.frameTable = s.frameTable
  spt : t.spt = s.spt
  pagedir : t.pagedir = s.pagedir
  mem : t.mem = s.mem
  userPool : t.userPool = s.userPool
  swapBitmap : t.swapBitmap = s.swapBitmap
  swapDevice : t.swapDevice = s.swapDevice
  swapLog : t.swapLog = s.swapLog

theorem SameMemory.refl (s : VmState) : SameMemory s s :=
  ⟨rfl, rfl, rfl, rfl, rfl, rfl, rfl, rfl, rfl, rfl⟩

theorem SameMemory.trans {s t u : VmState} (h : SameMemory s t) (h' : SameMemory t u) :
    SameMemory s u := by
  constructor
  · rw [h'.spte, h.spte]
  · rw [h'.frame, h.frame]
  · rw [h'.frameTable, h.frameTable]
  · rw [h'.spt, h.spt]
  · rw [h'.pagedir, h.pagedir]
  · rw [h'.mem, h.mem]
  · rw [h'.userPool, h.userPool]
  · rw [h'.swapBitmap, h.swapBitmap]
  · rw [h'.swapDevice, h.swapDevice]
  · rw [h'.swapLog, h.swapLog]

theorem sameMemory_takeHeap (s : VmState) : SameMemory s s.takeHeap.2 :=
  ⟨rfl, rfl, rfl, rfl, rfl, rfl, rfl, rfl, rfl, rfl⟩

end Pintos.Vm

namespace Pintos.Filesys

open Pintos.Vm

/-- Store an inode. -/
def setInode (s : VmState) (n : InodeNo) (inode : Inode) : VmState :=
  { s with inode := Function.update s.inode n inode }

/-- Store a handle. -/
def setFile (s : VmState) (f : FileAddr) (file : File) : VmState :=
  { s with file := Function.update s.file f (some file) }

/-- `inode_reopen`, `filesys/inode.c:144–151`. -/
def inodeReopen (n : InodeNo) (s : VmState) : VmState :=
  setInode s n { s.inode n with openCnt := (s.inode n).openCnt + 1 }

/-- `inode_close`: one opener less, `filesys/inode.c:163–186`. -/
def inodeClose (n : InodeNo) (s : VmState) : VmState :=
  setInode s n { s.inode n with openCnt := (s.inode n).openCnt - 1 }

/-- `file_open` on an inode that the caller has opened, `filesys/file.c:17–34`. -/
def fileOpen (inode : Option InodeNo) (s : VmState) : Option FileAddr × VmState :=
  match inode, s.callocFile.1 with
  | some n, some f =>
    (some f, setFile s.callocFile.2 f { inode := n, pos := 0, denyWrite := false })
  | some n, none => (none, inodeClose n s.callocFile.2)
  | none, _ => (none, s.callocFile.2)

/-- `filesys_open` of a name that the directory resolves to `inode`,
`filesys/filesys.c:66–77`. -/
def filesysOpen (inode : Option InodeNo) (s : VmState) : Option FileAddr × VmState :=
  fileOpen inode (inode.elim s fun n => inodeReopen n s)

/-- `file_reopen`, `filesys/file.c:38–42`. -/
def fileReopen (f : FileAddr) (s : VmState) : Option (Option FileAddr × VmState) :=
  (s.file f).map fun file => fileOpen (some file.inode) (inodeReopen file.inode s)

/-- `file_deny_write` with the assertion of `inode_deny_write`, `filesys/file.c:118–127`. -/
def fileDenyWrite (f : FileAddr) (s : VmState) : Option VmState :=
  match s.file f with
  | none => none
  | some file =>
    let inode := s.inode file.inode
    if file.denyWrite then some s
    else if inode.denyWriteCnt + 1 ≤ inode.openCnt then
      some (setInode (setFile s f { file with denyWrite := true }) file.inode
        { inode with denyWriteCnt := inode.denyWriteCnt + 1 })
    else none

/-- `file_allow_write` with the assertions of `inode_allow_write`, `filesys/file.c:132–141`. -/
def fileAllowWrite (f : FileAddr) (s : VmState) : Option VmState :=
  match s.file f with
  | none => none
  | some file =>
    let inode := s.inode file.inode
    if !file.denyWrite then some s
    else if 0 < inode.denyWriteCnt ∧ inode.denyWriteCnt ≤ inode.openCnt then
      some (setInode (setFile s f { file with denyWrite := false }) file.inode
        { inode with denyWriteCnt := inode.denyWriteCnt - 1 })
    else none

/-- `file_close`, `filesys/file.c:45–54`. -/
def fileClose (f : FileAddr) (s : VmState) : Option VmState :=
  match s.file f, fileAllowWrite f s with
  | some file, some s =>
    let s := inodeClose file.inode s
    some { s with file := Function.update s.file f none }
  | _, _ => none

/-- `file_length`, `filesys/file.c:144–149`. -/
def fileLength (f : FileAddr) (s : VmState) : Option Nat :=
  (s.file f).map fun file => (s.inode file.inode).length

/-- `file_seek`; as an `off_t`, a position from `2 ^ 31` on is negative and fails the
assertion, `filesys/file.c:153–159`. -/
def fileSeek (f : FileAddr) (pos : Nat) (s : VmState) : Option VmState :=
  if pos < 2 ^ 31 then (s.file f).map fun file => setFile s f { file with pos := pos } else none

/-- `file_read_at`: the number of bytes read and the bytes from the offset on,
`filesys/file.c:81–85`. The bounce buffer takes one answer of the allocator. -/
def fileReadAt (f : FileAddr) (size offset : Nat) (s : VmState) :
    Option (Nat × (Nat → UInt8) × VmState) :=
  (s.file f).map fun file =>
    let inode := s.inode file.inode
    (inodeReadAt inode s.takeHeap.1.isSome size offset, fun j => inode.data (offset + j),
      s.takeHeap.2)

/-- `file_read`, `filesys/file.c:68–74`. -/
def fileRead (f : FileAddr) (size : Nat) (s : VmState) :
    Option (Nat × (Nat → UInt8) × VmState) :=
  match s.file f with
  | none => none
  | some file =>
    (fileReadAt f size file.pos s).map fun (n, bytes, s) =>
      (n, bytes, setFile s f { file with pos := file.pos + n })

/-- `file_write_at`, `filesys/file.c:109–114`. -/
def fileWriteAt (f : FileAddr) (buffer : Nat → UInt8) (size offset : Nat) (s : VmState) :
    Option (Nat × VmState) :=
  (s.file f).map fun file =>
    let r := inodeWriteAt (s.inode file.inode) s.takeHeap.1.isSome buffer size offset
    (r.1, setInode s.takeHeap.2 file.inode r.2)

/-- `file_write`, `filesys/file.c:96–102`. -/
def fileWrite (f : FileAddr) (buffer : Nat → UInt8) (size : Nat) (s : VmState) :
    Option (Nat × VmState) :=
  match s.file f with
  | none => none
  | some file =>
    (fileWriteAt f buffer size file.pos s).map fun (n, s) =>
      (n, setFile s f { file with pos := file.pos + n })

variable {s t : VmState}

theorem sameMemory_setInode (s : VmState) (n : InodeNo) (inode : Inode) :
    SameMemory s (setInode s n inode) :=
  ⟨rfl, rfl, rfl, rfl, rfl, rfl, rfl, rfl, rfl, rfl⟩

theorem sameMemory_setFile (s : VmState) (f : FileAddr) (file : File) :
    SameMemory s (setFile s f file) :=
  ⟨rfl, rfl, rfl, rfl, rfl, rfl, rfl, rfl, rfl, rfl⟩

private theorem sameMemory_fileOpen (inode : Option InodeNo) (s : VmState) :
    SameMemory s (fileOpen inode s).2 := by
  unfold fileOpen
  split
  · exact (sameMemory_takeHeap s).trans (sameMemory_setFile _ _ _)
  · exact (sameMemory_takeHeap s).trans (sameMemory_setInode _ _ _)
  · exact sameMemory_takeHeap s

theorem sameMemory_filesysOpen (inode : Option InodeNo) (s : VmState) :
    SameMemory s (filesysOpen inode s).2 := by
  cases inode with
  | none => exact sameMemory_fileOpen none s
  | some n => exact (sameMemory_setInode s n _).trans (sameMemory_fileOpen _ _)

theorem sameMemory_fileReopen
    (h : fileReopen f s = some (o, t)) : SameMemory s t := by
  simp only [fileReopen, Option.map_eq_some_iff] at h
  obtain ⟨file, -, h⟩ := h
  have := (sameMemory_setInode s file.inode _).trans
    (sameMemory_fileOpen (some file.inode) (inodeReopen file.inode s))
  rwa [h] at this

theorem sameMemory_fileAllowWrite (h : fileAllowWrite f s = some t) :
    SameMemory s t := by
  simp only [fileAllowWrite] at h
  split at h
  · cases h
  · split at h
    · cases h
      exact .refl s
    · split at h
      · cases h
        exact (sameMemory_setFile s f _).trans (sameMemory_setInode _ _ _)
      · cases h

theorem sameMemory_fileClose (h : fileClose f s = some t) : SameMemory s t := by
  unfold fileClose at h
  split at h
  · next file s' hfile hallow =>
    cases h
    exact (sameMemory_fileAllowWrite hallow).trans
      ⟨rfl, rfl, rfl, rfl, rfl, rfl, rfl, rfl, rfl, rfl⟩
  · cases h

theorem sameMemory_fileWriteAt {buffer : Nat → UInt8} {size offset n : Nat}
    (h : fileWriteAt f buffer size offset s = some (n, t)) : SameMemory s t := by
  simp only [fileWriteAt, Option.map_eq_some_iff, Prod.mk.injEq] at h
  obtain ⟨file, -, -, rfl⟩ := h
  exact (sameMemory_takeHeap s).trans (sameMemory_setInode _ _ _)

/-! ## What the file functions leave alone -/

/-- Handles, inodes and the allocator may have changed, and nothing else. -/
def OnlyFiles (s t : VmState) : Prop :=
  t = { s with file := t.file, inode := t.inode, heap := t.heap }

namespace OnlyFiles

theorem spt (h : OnlyFiles s t) : t.spt = s.spt := by rw [h]

theorem spte (h : OnlyFiles s t) : t.spte = s.spte := by rw [h]

theorem mmapList (h : OnlyFiles s t) : t.mmapList = s.mmapList := by rw [h]

theorem fdTable (h : OnlyFiles s t) : t.fdTable = s.fdTable := by rw [h]

theorem executable (h : OnlyFiles s t) : t.executable = s.executable := by rw [h]

end OnlyFiles

theorem OnlyFiles.trans {u : VmState} (h : OnlyFiles s t) (h' : OnlyFiles t u) :
    OnlyFiles s u := by
  unfold OnlyFiles at *
  rw [h', h]

private theorem onlyFiles_fileOpen (inode : Option InodeNo) (s : VmState) :
    OnlyFiles s (fileOpen inode s).2 := by
  unfold fileOpen
  split <;> rfl

theorem onlyFiles_filesysOpen (inode : Option InodeNo) (s : VmState) :
    OnlyFiles s (filesysOpen inode s).2 := by
  cases inode with
  | none => exact onlyFiles_fileOpen none s
  | some n =>
    have hreopen : OnlyFiles s (inodeReopen n s) := rfl
    exact hreopen.trans (onlyFiles_fileOpen _ _)

theorem onlyFiles_fileReopen
    (h : fileReopen f s = some (o, t)) : OnlyFiles s t := by
  simp only [fileReopen, Option.map_eq_some_iff] at h
  obtain ⟨file, -, h⟩ := h
  have hopen := onlyFiles_filesysOpen (some file.inode) s
  rwa [filesysOpen, Option.elim_some, h] at hopen

private theorem onlyFiles_fileAllowWrite (h : fileAllowWrite f s = some t) :
    OnlyFiles s t := by
  simp only [fileAllowWrite] at h
  split at h
  · cases h
  · split at h
    · cases h
      rfl
    · split at h <;> cases h
      rfl

theorem onlyFiles_fileClose (h : fileClose f s = some t) : OnlyFiles s t := by
  unfold fileClose at h
  split at h
  · next file s' _ hallow =>
    cases h
    exact (onlyFiles_fileAllowWrite hallow).trans rfl
  · cases h

/-! ## The table of handles -/

private theorem file_fileOpen (inode : Option InodeNo) (s : VmState) :
    ((fileOpen inode s).1 = none ∧ (fileOpen inode s).2.file = s.file) ∨
      ∃ f n, inode = some n ∧ (fileOpen inode s).1 = some f ∧ s.file f = none ∧
        (fileOpen inode s).2.file = Function.update s.file f (some ⟨n, 0, false⟩) := by
  unfold fileOpen
  split
  · next n f halloc =>
    have hfree : s.file f = none := by simpa using (Option.filter_eq_some_iff.mp halloc).2
    exact .inr ⟨f, n, rfl, rfl, hfree, rfl⟩
  · exact .inl ⟨rfl, rfl⟩
  · exact .inl ⟨rfl, rfl⟩

theorem file_filesysOpen (inode : Option InodeNo) (s : VmState) :
    ((filesysOpen inode s).1 = none ∧ (filesysOpen inode s).2.file = s.file) ∨
      ∃ f n, inode = some n ∧ (filesysOpen inode s).1 = some f ∧ s.file f = none ∧
        (filesysOpen inode s).2.file = Function.update s.file f (some ⟨n, 0, false⟩) := by
  cases inode with
  | none => exact file_fileOpen none s
  | some n => exact file_fileOpen (some n) (inodeReopen n s)

theorem file_fileReopen (h : fileReopen f s = some (o, t)) :
    (o = none ∧ t.file = s.file) ∨ ∃ g file, s.file f = some file ∧ o = some g ∧
      s.file g = none ∧ t.file = Function.update s.file g (some ⟨file.inode, 0, false⟩) := by
  simp only [fileReopen, Option.map_eq_some_iff] at h
  obtain ⟨file, hfile, h⟩ := h
  rcases file_fileOpen (some file.inode) (inodeReopen file.inode s) with
    ⟨hnone, hsame⟩ | ⟨g, n, hn, hsome, hfree, hnew⟩
  · rw [h] at hnone hsame
    exact .inl ⟨hnone, hsame⟩
  · rw [h] at hsome hnew
    cases hn
    exact .inr ⟨g, file, hfile, hsome, hfree, hnew⟩

theorem file_fileClose (h : fileClose f s = some t) :
    (s.file f).isSome ∧ t.file = Function.update s.file f none := by
  unfold fileClose at h
  split at h
  · next file s' hfile hallow =>
    cases h
    refine ⟨by rw [hfile]; rfl, ?_⟩
    have hupdate : Function.update s'.file f none = Function.update s.file f none := by
      unfold fileAllowWrite at hallow
      simp only [hfile] at hallow
      split at hallow
      · cases hallow
        rfl
      · split at hallow <;> cases hallow
        simp [setInode, setFile]
    exact hupdate
  · cases h

end Pintos.Filesys

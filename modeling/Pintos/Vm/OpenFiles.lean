import Pintos.Base.LiveCount
import Pintos.Filesys.File

/-!
# Handles and the counts of their inodes

`open_cnt` counts at least the handles on an inode, and `deny_write_cnt` at least those of them
that deny writes, so that no assertion of `inode_deny_write` and `inode_allow_write` fails: a live
handle can be closed. Source `filesys/file.c:15–54`, `filesys/inode.c:320–345`.
-/

namespace Pintos.Filesys

open Pintos.Base Pintos.Vm

variable {v : FileAddr → Option (InodeNo × Bool)} {inode inode' : InodeNo → Inode} {f : FileAddr}
  {n : InodeNo} {b : Bool} {s t : VmState}

/-- What a handle counts for: its inode, and whether it denies writes. -/
def handles (s : VmState) (f : FileAddr) : Option (InodeNo × Bool) :=
  (s.file f).map fun file => (file.inode, file.denyWrite)

/-- The counts of the inodes cover the handles `v`. -/
def Counted (v : FileAddr → Option (InodeNo × Bool)) (inode : InodeNo → Inode) : Prop :=
  ∃ l : List FileAddr, l.Nodup ∧ (∀ f, f ∈ l ↔ (v f).isSome) ∧
    ∀ n, l.countP (fun f => v f == some (n, true)) ≤ (inode n).denyWriteCnt ∧
      (inode n).denyWriteCnt + l.countP (fun f => v f == some (n, false)) ≤ (inode n).openCnt

/-- The counts that one more handle on an inode makes. -/
def Inode.opened (i : Inode) (b : Bool) : Inode :=
  { i with openCnt := i.openCnt + 1, denyWriteCnt := i.denyWriteCnt + b.toNat }

/-- The counts that one handle less on an inode leaves. -/
def Inode.closed (i : Inode) (b : Bool) : Inode :=
  { i with openCnt := i.openCnt - 1, denyWriteCnt := i.denyWriteCnt - b.toNat }

/-- The counts cover the handles there are. -/
abbrev CountsOk (s : VmState) : Prop := Counted (handles s) s.inode

namespace Counted

/-- Only the counts matter. -/
theorem congr (h : Counted v inode) (ho : ∀ n, (inode' n).openCnt = (inode n).openCnt)
    (hd : ∀ n, (inode' n).denyWriteCnt = (inode n).denyWriteCnt) : Counted v inode' := by
  obtain ⟨l, hl, hmem, hcount⟩ := h
  refine ⟨l, hl, hmem, fun n => ?_⟩
  rw [ho, hd]
  exact hcount n

private theorem add (h : Counted v inode) (hf : v f = none) :
    Counted (Function.update v f (some (n, b))) (Function.update inode n ((inode n).opened b)) := by
  obtain ⟨l, hl, hmem, hcount⟩ := h
  have hnot : f ∉ l := fun hfl => by simpa [hf] using (hmem f).mp hfl
  refine ⟨f :: l, List.nodup_cons.mpr ⟨hnot, hl⟩, fun g => ?_, fun m => ?_⟩
  · rw [List.mem_cons, hmem]
    by_cases hgf : g = f <;> simp [hgf]
  · have hdeny := @countP_update_cons _ _ _ _ v (· == some (m, true)) f (some (n, b)) hnot
    have hplain := @countP_update_cons _ _ _ _ v (· == some (m, false)) f (some (n, b)) hnot
    rw [hdeny, hplain]
    have hm := hcount m
    by_cases hmn : m = n
    · subst hmn
      cases b <;> simp [Inode.opened] <;> omega
    · simpa [hmn, Ne.symm hmn] using hm

private theorem drop (h : Counted v inode) (hf : v f = some (n, b)) :
    b.toNat ≤ (inode n).denyWriteCnt ∧ (inode n).denyWriteCnt ≤ (inode n).openCnt ∧
      Counted (Function.update v f none) (Function.update inode n ((inode n).closed b)) := by
  obtain ⟨l, hl, hmem, hcount⟩ := h
  have hfl : f ∈ l := (hmem f).mpr (by simp [hf])
  have hrest : ∀ p : Option (InodeNo × Bool) → Bool,
      (l.erase f).countP (fun g => p (Function.update v f none g)) + (if p (v f) then 1 else 0) =
        l.countP fun g => p (v g) := by
    intro p
    rw [← countP_erase_add (fun g => p (v g)) hfl]
    congr 1
    apply List.countP_congr
    intro g hg
    rw [Function.update_of_ne (hl.mem_erase_iff.mp hg).1]
  have hn := hcount n
  have hdeny := hrest (· == some (n, true))
  have hplain := hrest (· == some (n, false))
  rw [hf] at hdeny hplain
  refine ⟨?_, by omega, l.erase f, hl.erase f, fun g => ?_, fun m => ?_⟩
  · cases b
    · exact Nat.zero_le _
    · simp at hdeny
      simp
      omega
  · rw [hl.mem_erase_iff, hmem]
    by_cases hgf : g = f <;> simp [hgf]
  · by_cases hmn : m = n
    · subst hmn
      rw [Function.update_self]
      cases b <;> simp [Inode.closed] at hdeny hplain ⊢ <;> omega
    · have hm := hcount m
      rw [← hrest (· == some (m, true)), ← hrest (· == some (m, false)), hf] at hm
      simpa [hmn, Ne.symm hmn] using hm

end Counted

private theorem handles_update {o : Option File}
    (h : t.file = Function.update s.file f o) :
    handles t = Function.update (handles s) f (o.map fun file => (file.inode, file.denyWrite)) := by
  funext g
  by_cases hgf : g = f <;> simp [handles, h, hgf]

/-- A new handle is counted. -/
theorem CountsOk.opened (h : CountsOk s) (hf : s.file f = none)
    (hfile : t.file = Function.update s.file f (some ⟨n, 0, b⟩))
    (hinode : t.inode = Function.update s.inode n ((s.inode n).opened b)) : CountsOk t := by
  have hadd := Counted.add (f := f) (n := n) (b := b) h (by rw [handles, hf]; rfl)
  unfold CountsOk
  rw [handles_update hfile, hinode]
  exact hadd

/-- Opening a file counts its handle, or leaves the counts as they were. -/
theorem counted_filesysOpen (h : CountsOk s) (o : Option InodeNo) :
    CountsOk (filesysOpen o s).2 := by
  cases o with
  | none => exact h
  | some n =>
    simp only [filesysOpen, Option.elim_some, fileOpen]
    split
    · next f hn hf =>
      cases hn
      have hfree : s.file f = none := by
        simpa [inodeReopen, setInode] using (Option.filter_eq_some_iff.mp hf).2
      exact h.opened (b := false) hfree rfl rfl
    · next hn hf =>
      cases hn
      apply Counted.congr h
      · intro m
        by_cases hm : m = n <;> simp [inodeClose, inodeReopen, setInode, VmState.callocFile, VmState.takeHeap, hm]
      · intro m
        by_cases hm : m = n <;> simp [inodeClose, inodeReopen, setInode, VmState.callocFile, VmState.takeHeap, hm]
    · next hn => cases hn

theorem CountsOk.fileReopen (h : CountsOk s) {o : Option FileAddr}
    (hr : fileReopen f s = some (o, t)) : CountsOk t := by
  simp only [Filesys.fileReopen, Option.map_eq_some_iff] at hr
  obtain ⟨file, -, hr⟩ := hr
  have hopen := counted_filesysOpen h (some file.inode)
  rwa [filesysOpen, Option.elim_some, hr] at hopen

/-- A live handle can be closed. -/
theorem fileClose_of_counted (h : CountsOk s) (hf : (s.file f).isSome) :
    ∃ t, fileClose f s = some t ∧ CountsOk t := by
  obtain ⟨file, hfile⟩ := Option.isSome_iff_exists.mp hf
  obtain ⟨hpos, hle, hdrop⟩ := h.drop (f := f) (n := file.inode) (b := file.denyWrite)
    (by rw [handles, hfile]; rfl)
  have hallow : ∃ u, fileAllowWrite f s = some u ∧
      handles { u with file := Function.update u.file f none } =
        Function.update (handles s) f none ∧
      Function.update u.inode file.inode
          { u.inode file.inode with openCnt := (u.inode file.inode).openCnt - 1 } =
        Function.update s.inode file.inode ((s.inode file.inode).closed file.denyWrite) := by
    simp only [fileAllowWrite, hfile]
    cases hb : file.denyWrite with
    | false => exact ⟨s, rfl, handles_update (o := none) rfl, rfl⟩
    | true =>
      rw [hb] at hpos
      refine ⟨_, (if_neg (by decide)).trans (if_pos ⟨hpos, hle⟩), ?_, ?_⟩
      · exact handles_update (o := none) (by simp [setInode, setFile])
      · simp [setInode, setFile, Inode.closed]
  obtain ⟨u, hu, hhandles, hinode⟩ := hallow
  refine ⟨_, by rw [fileClose, hfile, hu], ?_⟩
  rw [← hhandles, ← hinode] at hdrop
  exact hdrop

theorem CountsOk.fileClose (h : CountsOk s) (hc : fileClose f s = some t) : CountsOk t := by
  obtain ⟨u, hu, hcounts⟩ := fileClose_of_counted h (file_fileClose hc).1
  cases hc.symm.trans hu
  exact hcounts

/-- A handle that may be closed may be allowed to write before. -/
theorem fileAllowWrite_bind_fileClose (h : fileClose f s = some t) :
    (fileAllowWrite f s).bind (fileClose f) = some t := by
  unfold fileClose at h
  split at h
  · next file u hfile hallow =>
    cases h
    have hf : u.file f = some { file with denyWrite := false } := by
      simp only [fileAllowWrite, hfile] at hallow
      split at hallow
      · next hb =>
        cases hallow
        have hplain : file.denyWrite = false := by simpa using hb
        rw [hfile, ← hplain]
      · split at hallow <;> cases hallow
        simp [setInode, setFile]
    rw [hallow, Option.bind_some]
    simp [fileClose, fileAllowWrite, hf]
  · cases h

end Pintos.Filesys

import Pintos.Base.Ownership
import Pintos.Vm.Mappings

/-!
# Who closes a handle

A handle belongs to a process: it is its executable, or it is held by a descriptor or by a mapping.
Whoever holds a handle is going to close it, so every open handle must have one holder, and one
only. Source `userprog/process.h:20–45`, `vm/mmap.h:12–19`.
-/

namespace Pintos.Vm

open Pintos.Base Pintos.Threads Pintos.Userprog Pintos.Lib Pintos.Filesys

variable {s t u : VmState} {x y : Option Pid} {p : Pid} {f g : FileAddr} {m : MmapEntry} {fd : Nat}
  {c : Prop}

/-- Where a process keeps its handles, and whether it is there at all. -/
structure Holdings where
  live : Bool
  executable : Option FileAddr
  fdTable : Nat → Option FileAddr
  mmapList : List MmapEntry
  nextMapid : Nat

/-- The handles of a process. -/
def VmState.holdings (s : VmState) (p : Pid) : Holdings :=
  ⟨(s.pagedir p).isSome, s.executable p, s.fdTable p, s.mmapList p, s.nextMapid p⟩

theorem holdings_setMmapList (s : VmState) (p : Pid) (l : List MmapEntry) :
    { s with mmapList := Function.update s.mmapList p l }.holdings =
      Function.update s.holdings p { s.holdings p with mmapList := l } := by
  funext q
  by_cases hq : q = p
  · subst hq
    simp [VmState.holdings]
  · simp [VmState.holdings, hq]

theorem holdings_setFd (s : VmState) (p : Pid) (fd : Nat) (o : Option FileAddr) :
    (setFd p fd o s).holdings =
      Function.update s.holdings p { s.holdings p with fdTable := Function.update (s.fdTable p) fd o } := by
  funext q
  by_cases hq : q = p
  · subst hq
    simp [VmState.holdings, setFd]
  · simp [VmState.holdings, setFd, hq]

theorem holdings_onlyFiles (h : OnlyFiles s t) : t.holdings = s.holdings := by
  rw [h]
  rfl

/-- What a process holds a handle by. -/
inductive Holder where
  | executable
  | descriptor (fd : Nat)
  | mapping (m : MmapEntry)

namespace Holdings

variable {h : Holdings} {k : Holder}

/-- The process holds `f` by `k`. An executable that is `closed` is not held any more. -/
def Has (h : Holdings) (closed : Prop) : Holder → FileAddr → Prop
  | .executable, f => h.live = true ∧ ¬ closed ∧ h.executable = some f
  | .descriptor fd, f => h.live = true ∧ h.fdTable fd = some f
  | .mapping m, f => h.live = true ∧ m ∈ h.mmapList ∧ m.file = f

/-- Descriptors 0 and 1 are not in use, and mappings have different ids, all used up. -/
structure WellFormed (h : Holdings) : Prop where
  range : ∀ fd f, h.fdTable fd = some f → 2 ≤ fd ∧ fd < MAX_FD_COUNT
  ids : (h.mmapList.map MmapEntry.mapid).Nodup
  below : ∀ m ∈ h.mmapList, m.mapid < h.nextMapid

private theorem Has.functional (hf : h.Has c k f) (hg : h.Has c k g) : g = f := by
  cases k with
  | executable => exact Option.some.inj (hg.2.2.symm.trans hf.2.2)
  | descriptor fd => exact Option.some.inj (hg.2.symm.trans hf.2)
  | mapping m => exact hg.2.2.symm.trans hf.2.2

theorem Has.isLive (hf : h.Has c k f) : h.live = true := by
  cases k <;> exact hf.1

/-- Closing the executable. -/
theorem has_closed : h.Has True k g ↔ h.Has False k g ∧ k ≠ .executable := by
  cases k <;> simp [Has]

/-- Closing a descriptor. -/
theorem has_closeFd (fd : Nat) :
    { h with fdTable := Function.update h.fdTable fd none }.Has c k g ↔
      h.Has c k g ∧ k ≠ .descriptor fd := by
  cases k with
  | descriptor n => by_cases hn : n = fd <;> simp [Has, hn]
  | executable | mapping m => simp [Has]

/-- Opening a descriptor. -/
theorem has_openFd (hl : h.live = true) (hfd : h.fdTable fd = none) :
    { h with fdTable := Function.update h.fdTable fd (some f) }.Has c k g ↔
      h.Has c k g ∨ (k = .descriptor fd ∧ g = f) := by
  cases k with
  | descriptor n =>
    by_cases hn : n = fd
    · simp [Has, hn, hl, hfd, eq_comm]
    · simp [Has, hn]
  | executable | mapping m => simp [Has]

/-- Adding a mapping. -/
theorem has_map (hl : h.live = true) (n : Nat) :
    { h with mmapList := h.mmapList ++ [m], nextMapid := n }.Has c k g ↔
      h.Has c k g ∨ (k = .mapping m ∧ g = m.file) := by
  cases k with
  | mapping m' =>
    simp only [Has, hl, List.mem_append, List.mem_singleton, true_and, Holder.mapping.injEq]
    grind
  | executable | descriptor fd => simp [Has]

/-- Removing a mapping: the first with the id, but no mapping is listed twice. -/
theorem has_unmap {q : MmapEntry → Bool} (hok : h.WellFormed) (hm : h.mmapList.find? q = some m) :
    { h with mmapList := h.mmapList.eraseP q }.Has c k g ↔ h.Has c k g ∧ k ≠ .mapping m := by
  have hmem : ∀ l : List MmapEntry, l.Nodup → l.find? q = some m →
      ∀ a, a ∈ l.eraseP q ↔ a ∈ l ∧ a ≠ m := by
    intro l
    induction l with
    | nil => simp
    | cons b l ih => grind
  cases k with
  | mapping m' => simp [Has, hmem _ hok.ids.of_map hm, and_comm, and_left_comm]
  | executable | descriptor fd => simp [Has]

end Holdings

/-- A holder of a process has handle `f`. Process `x` is ending and has closed its executable. -/
def Holds (x : Option Pid) (s : VmState) (k : Pid × Holder) (f : FileAddr) : Prop :=
  (s.holdings k.1).Has (x = some k.1) k.2 f

/-- The open handles are those that are held, and the counts of the inodes cover them. -/
structure FilesOk (x : Option Pid) (s : VmState) : Prop where
  owned : Owned (Holds x s) fun f => (s.file f).isSome = true
  tables : ∀ p, (s.holdings p).WellFormed
  counts : CountsOk s

/-- Nobody's handles change; positions in files and the bytes of inodes may. -/
structure HoldersKept (s t : VmState) : Prop where
  file : ∀ f, (t.file f).isSome = (s.file f).isSome
  counts : CountsOk s → CountsOk t
  holdings : t.holdings = s.holdings

theorem HoldersKept.trans (h : HoldersKept s t) (h' : HoldersKept t u) : HoldersKept s u :=
  ⟨fun f => (h'.file f).trans (h.file f), h'.counts ∘ h.counts, h'.holdings.trans h.holdings⟩

theorem HoldersKept.mmapList (h : HoldersKept s t) : t.mmapList = s.mmapList :=
  funext fun q => congrArg Holdings.mmapList (congrFun h.holdings q)

theorem HandlesKept.holders (h : HandlesKept s t)
    (hp : ∀ q, (t.pagedir q).isSome = (s.pagedir q).isSome) : HoldersKept s t := by
  refine ⟨fun f => by simpa using congrArg Option.isSome (h.file f), fun hc => ?_, funext fun q => ?_⟩
  · have heq : handles t = handles s := funext h.file
    unfold CountsOk
    rwa [heq, h.inode]
  · rw [VmState.holdings, hp, h.executable, h.fdTable, h.mmapList, h.nextMapid, VmState.holdings]

private theorem countsOk_of_same (hf : (t.file, t.inode) = (s.file, s.inode)) (hc : CountsOk s) :
    CountsOk t := by
  obtain ⟨hfile, hinode⟩ := Prod.mk.inj hf
  have heq : handles t = handles s := funext fun f => by rw [handles, hfile, handles]
  unfold CountsOk
  rwa [heq, hinode]

theorem holdersKept_of_same (hf : (t.file, t.inode) = (s.file, s.inode))
    (hh : t.holdings = s.holdings) : HoldersKept s t :=
  ⟨fun f => by rw [(Prod.mk.inj hf).1], countsOk_of_same hf, hh⟩

namespace FilesOk

variable {k : Holder} {H : Holdings}

theorem isSome (h : FilesOk x s) (hk : (s.holdings p).Has (x = some p) k f) : (s.file f).isSome :=
  h.owned.alive (p, k) f hk

theorem kept (h : FilesOk x s) (hk : HoldersKept s t) : FilesOk x t where
  owned := h.owned.congr (fun k f => by rw [Holds, hk.holdings, Holds]) fun f => by rw [hk.file]
  tables := hk.holdings ▸ h.tables
  counts := hk.counts h.counts

private theorem wellFormed_update (h : FilesOk x s) (hH : t.holdings = Function.update s.holdings p H)
    (hok : H.WellFormed) (q : Pid) : (t.holdings q).WellFormed := by
  rw [hH]
  by_cases hq : q = p
  · rw [hq, Function.update_self]
    exact hok
  · rw [Function.update_of_ne hq]
    exact h.tables q

/-- A holder of process `p` closes its handle. -/
theorem close (h : FilesOk x s) (hk : (s.holdings p).Has (x = some p) k f)
    (hfile : ∀ g, (t.file g).isSome = true ↔ (s.file g).isSome = true ∧ g ≠ f) (hcounts : CountsOk t)
    (hH : t.holdings = Function.update s.holdings p H) (hok : H.WellFormed)
    (hx : ∀ q ≠ p, y = some q ↔ x = some q)
    (hp : ∀ k' g, H.Has (y = some p) k' g ↔ (s.holdings p).Has (x = some p) k' g ∧ k' ≠ k) :
    FilesOk y t where
  owned := by
    refine h.owned.release (k := (p, k)) hk (fun g hg => hk.functional hg) ?_ hfile
    rintro ⟨q, k'⟩ g
    simp only [Holds, hH]
    by_cases hq : q = p
    · subst hq
      simpa using hp k' g
    · simp [hq, hx q hq]
  tables := h.wellFormed_update hH hok
  counts := hcounts

/-- A new handle gets a holder in process `p`. -/
theorem acquire (h : FilesOk x s) (hfresh : s.file f = none)
    (hfile : ∀ g, (t.file g).isSome = true ↔ (s.file g).isSome = true ∨ g = f)
    (hcounts : CountsOk t) (hH : t.holdings = Function.update s.holdings p H) (hok : H.WellFormed)
    (hp : ∀ k' g, H.Has (x = some p) k' g ↔
      (s.holdings p).Has (x = some p) k' g ∨ (k' = k ∧ g = f)) :
    FilesOk x t where
  owned := by
    refine h.owned.acquire (k := (p, k)) (f := f) (by simp [hfresh]) ?_ hfile
    rintro ⟨q, k'⟩ g
    simp only [Holds, hH]
    by_cases hq : q = p
    · subst hq
      simpa using hp k' g
    · simp [hq]
  tables := h.wellFormed_update hH hok
  counts := hcounts

/-- Ids of mappings are used up. -/
theorem skipIds (h : FilesOk x s) {n : Nat} (hn : s.nextMapid p ≤ n)
    (hfile : ∀ f, (t.file f).isSome = (s.file f).isSome) (hcounts : CountsOk t)
    (hH : t.holdings = Function.update s.holdings p { s.holdings p with nextMapid := n }) :
    FilesOk x t where
  owned := by
    refine h.owned.congr ?_ fun f => by rw [hfile]
    rintro ⟨q, k⟩ f
    simp only [Holds, hH]
    by_cases hq : q = p
    · subst hq
      cases k <;> simp [Holdings.Has]
    · simp [hq]
  tables := h.wellFormed_update hH
    { h.tables p with below := fun m hm => ((h.tables p).below m hm).trans_le hn }
  counts := hcounts

/-- A process that has closed everything is gone. -/
theorem gone (h : FilesOk (some p) s) (hnone : ∀ k f, ¬ (s.holdings p).Has True k f)
    (hfile : (t.file, t.inode) = (s.file, s.inode))
    (hH : t.holdings = Function.update s.holdings p { s.holdings p with live := false }) :
    FilesOk none t where
  owned := by
    refine h.owned.congr ?_ fun f => by rw [(Prod.mk.inj hfile).1]
    rintro ⟨q, k⟩ f
    simp only [Holds, hH]
    by_cases hq : q = p
    · subst hq
      exact iff_of_false (fun hk => by simpa using hk.isLive) (by simpa using hnone k f)
    · simp [hq, Ne.symm hq]
  tables := h.wellFormed_update hH { h.tables p with }
  counts := countsOk_of_same hfile h.counts

end FilesOk

end Pintos.Vm

import Pintos.Vm.Holders
import Pintos.Vm.SwapOwnership

/-!
# The end of a process

Every handle is held by the one process, descriptor or mapping that is going to close it, and every
page of a mapping has an entry backed by the mapping's file. So `mmap_unmap` and `process_exit`
find what they need and no assertion stops them: no page is freed twice, and none is left over.
Source `vm/mmap.c:104–161`, `userprog/process.c:242–317`, `vm/page.c:45–58`.
-/

namespace Pintos.Vm

open Pintos.Base Pintos.Threads Pintos.Userprog Pintos.Lib Pintos.Filesys

variable {s t u : VmState} {x : Option Pid} {p : Pid} {f : FileAddr} {e : SptEntry} {i : SpteAddr}
  {v : FrameAddr} {fr : Frame} {D : List Nat} {l : Pid → List SpteAddr}

/-! ## Releasing one page -/

private theorem validSlot_of_owned (ho : SlotsOwned D s) (he : s.spte i = some e)
    (ht : e.type = .swap) (hf : e.frame = none ∨ e.swapSlot ≠ 0)
    (hb : t.swapBitmap = s.swapBitmap) : validSlot t e.swapSlot = true := by
  obtain ⟨-, -, hmod, hbit⟩ := ho.owner i e _ he (ho.field i e he ht hf)
  have hlt := lt_length_of_bitmapTest hbit
  simp [validSlot, hmod, hb, hlt]

private theorem freeSlotOf_total (ho : SlotsOwned D s) (he : s.spte i = some e)
    (hb : t.swapBitmap = s.swapBitmap) : ∃ u, freeSlotOf e t = some u ∧ HoldersKept t u := by
  unfold freeSlotOf
  split
  · next hc =>
    rw [swapFree, if_pos (validSlot_of_owned ho he hc.1 (.inr hc.2) hb)]
    exact ⟨_, rfl, holdersKept_of_same rfl rfl⟩
  · exact ⟨t, rfl, holdersKept_of_same rfl rfl⟩

/-- The frame of an entry can be unmapped and freed. -/
private theorem Consistent.frameFree_total (h : Consistent .idle s) (hv : s.frame v = some fr)
    {pd : PageDir} (pd' : PageDir) (hpd : s.pagedir p = some pd)
    (hm : SameMemory { s with spt := l } t) :
    ∃ u, frameFree v (t.setPagedir p pd') = some u ∧ HoldersKept t u ∧
      u.swapBitmap = t.swapBitmap := by
  have hmem : v ∈ s.frameTable := (h.mem_table v).mpr (by simp [hv])
  have hbit : bitmapTest s.userPool fr.kpage = true := (h.pool _).mpr (.inl ⟨v, fr, hv, rfl⟩)
  have hsome : (frameFree v (t.setPagedir p pd')).isSome := by
    simp [frameFree, VmState.setPagedir, hm.frame, hv, hm.frameTable, hmem, pallocFreeUserPage,
      hm.userPool, hbit]
  obtain ⟨u, hu⟩ := Option.isSome_iff_exists.mp hsome
  obtain ⟨fr', -, rfl⟩ := frameFree_some hu
  refine ⟨_, hu, holdersKept_of_same rfl (funext fun q => ?_), rfl⟩
  by_cases hq : q = p <;>
    simp [VmState.holdings, VmState.poolFreed, VmState.setPagedir, hq, hm.pagedir, hpd]

/-- A write changes the bytes of an inode, but none of its counts. -/
theorem holdersKept_fileWriteAt {buffer : Nat → UInt8} {size offset n : Nat}
    (h : fileWriteAt f buffer size offset s = some (n, t)) : HoldersKept s t := by
  obtain ⟨file, -, h⟩ := Option.map_eq_some_iff.mp h
  cases h
  have hcnt : ∀ (i : Inode) (b : Bool) (buf : Nat → UInt8) (n ofs : Nat),
      (inodeWriteAt i b buf n ofs).2.openCnt = i.openCnt ∧
        (inodeWriteAt i b buf n ofs).2.denyWriteCnt = i.denyWriteCnt := by
    intro i b buf n ofs
    unfold inodeWriteAt
    split <;> exact ⟨rfl, rfl⟩
  refine ⟨fun _ => rfl, fun hc => Counted.congr hc (fun n => ?_) fun n => ?_, rfl⟩ <;>
    by_cases hn : n = file.inode <;> simp [setInode, VmState.takeHeap, hn, hcnt]

private theorem writeBack_total (page : PageData) (hf : e.file = some f)
    (ho : (s.file f).isSome) : ∃ t, writeBack e page s = some t ∧ HoldersKept s t := by
  obtain ⟨⟨n, t⟩, ht⟩ := Option.isSome_iff_exists.mp
    (show (fileWriteAt f (pageBytes page) e.readBytes e.fileOffset s).isSome by simpa [fileWriteAt])
  exact ⟨t, by simp [writeBack, hf, ht], holdersKept_fileWriteAt ht⟩

private theorem HoldersKept.spt (h : HoldersKept { s with spt := l } t) : HoldersKept s t :=
  ⟨h.file, h.counts, h.holdings⟩

private theorem Consistent.mmapReleaseFrame_total (h : Consistent .idle s) (ho : SlotsOwned D s)
    (hi : i ∈ s.spt p) (he : s.spte i = some e) (hv : e.frame = some v) (hf : e.file = some f)
    (hopen : (s.file f).isSome) :
    ∃ t, mmapReleaseFrame e v { s with spt := l } = some t ∧ HoldersKept s t := by
  obtain ⟨hown, fr, pd, hfr, -, hpd, -⟩ := h.resident p i e v hi he hv
  have hwb : ∃ t, mmapWriteBack e pd (s.mem fr.kpage) { s with spt := l } = some t ∧
      HoldersKept { s with spt := l } t ∧ SameMemory { s with spt := l } t := by
    unfold mmapWriteBack
    split
    · obtain ⟨t, ht, hk⟩ := writeBack_total (s.mem fr.kpage) (s := { s with spt := l }) hf hopen
      exact ⟨t, ht, hk, writeBack_same ht⟩
    · exact ⟨_, rfl, holdersKept_of_same rfl rfl, .refl _⟩
  obtain ⟨s1, hs1, hk1, hm⟩ := hwb
  obtain ⟨s2, hs2, hk2, hb⟩ := h.frameFree_total hfr (pagedirClearPage pd e.upage) hpd hm
  obtain ⟨s3, hs3, hk3⟩ := freeSlotOf_total ho he (hb.trans hm.swapBitmap)
  refine ⟨s3, ?_, (hk1.trans (hk2.trans hk3)).spt⟩
  simp [mmapReleaseFrame, hfr, ownerPagedir, hown, hpd, hs1, hs2, hs3]

private theorem mmapCopySlot_total (hslot : validSlot s e.swapSlot = true) (hf : e.file = some f)
    (hopen : (s.file f).isSome) :
    ∃ t, mmapCopySlot e s = some t ∧ HoldersKept s t ∧ t.swapBitmap = s.swapBitmap := by
  have hheap : HoldersKept s s.takeHeap.2 :=
    holdersKept_of_same rfl rfl
  unfold mmapCopySlot
  split
  · obtain ⟨t, ht, hk⟩ := writeBack_total (readSectors s.swapDevice e.swapSlot)
      (s := s.takeHeap.2) hf hopen
    exact ⟨t, by rw [swapRead, if_pos hslot]; exact ht, hheap.trans hk, (writeBack_same ht).swapBitmap⟩
  · exact ⟨_, rfl, hheap, rfl⟩

/-- A page of a mapping can be released as long as its file is open. -/
private theorem Consistent.mmapUnmapPage_total (h : Consistent .idle s) (ho : SlotsOwned D s)
    {upage : Addr} (hfile : ∀ i ∈ s.spt p, ∀ e, s.spte i = some e → e.upage = upage →
      ∃ f, e.file = some f ∧ (s.file f).isSome) :
    ∃ t, mmapUnmapPage p upage s = some t ∧ HoldersKept s t := by
  unfold mmapUnmapPage sptDelete
  cases hfind : sptFind s p upage with
  | none => exact ⟨s, rfl, holdersKept_of_same rfl rfl⟩
  | some i =>
    obtain ⟨hi, e, he, hup⟩ := sptFind_some hfind
    obtain ⟨f, hf, hopen⟩ := hfile i hi e he hup
    have hrel : ∃ t, mmapRelease e
        { s with spt := Function.update s.spt p ((s.spt p).erase i) } = some t ∧
          HoldersKept s t := by
      unfold mmapRelease
      split
      · next v hv => exact h.mmapReleaseFrame_total ho hi he hv hf hopen
      · next hnone =>
        split
        · next ht =>
          obtain ⟨t, hcopy, hk, hb⟩ := mmapCopySlot_total
            (s := { s with spt := Function.update s.spt p ((s.spt p).erase i) })
            (validSlot_of_owned ho he ht (.inl hnone) rfl) hf hopen
          rw [hcopy, Option.bind_some, swapFree,
            if_pos (validSlot_of_owned ho he ht (.inl hnone) hb)]
          refine ⟨_, rfl, hk.spt.trans ?_⟩
          exact holdersKept_of_same rfl rfl
        · exact ⟨_, rfl, holdersKept_of_same rfl rfl⟩
    obtain ⟨t, ht, hk⟩ := hrel
    refine ⟨t.freeSpte i, by simp [he, ht], hk.trans ?_⟩
    exact holdersKept_of_same rfl rfl

/-- When a page of a mapping is released, it has no entry any more. -/
private theorem Consistent.mmapUnmapPage_gone (h : Consistent .idle s) {upage : Addr}
    (hr : mmapUnmapPage p upage s = some t) (hi : i ∈ t.spt p) (he : t.spte i = some e) :
    e.upage ≠ upage := by
  intro hup
  have hrel := (h.mmapUnmapPage_released hr).shrinks
  unfold mmapUnmapPage sptDelete at hr
  cases hfind : sptFind s p upage with
  | none => exact sptFind_none hfind i (hrel.spt p i hi) e (hrel.spte i e he) hup
  | some j =>
    obtain ⟨hj, e', he', hup'⟩ := sptFind_some hfind
    cases h.upage_inj p i j e e' (hrel.spt p i hi) hj (hrel.spte i e he) he' (hup.trans hup'.symm)
    simp only [hfind, he', Option.bind_eq_bind, Option.bind_some, Option.bind_eq_some_iff] at hr
    obtain ⟨s1, -, ht⟩ := hr
    cases ht
    simp [VmState.freeSpte] at he

private theorem Consistent.unmapRange_total {l : List Nat} (addr : Addr) (h : Consistent .idle s)
    (ho : SlotsOwned D s) (hfile : ∀ n ∈ l, ∀ i ∈ s.spt p, ∀ e, s.spte i = some e →
      e.upage = mmapPage addr n → ∃ f, e.file = some f ∧ (s.file f).isSome) :
    ∃ t, run (fun s n => mmapUnmapPage p (mmapPage addr n) s) s l = some t ∧ HoldersKept s t ∧
      Shrinks s t ∧
      ∀ n ∈ l, ∀ i ∈ t.spt p, ∀ e, t.spte i = some e → e.upage ≠ mmapPage addr n := by
  induction l generalizing s D with
  | nil => exact ⟨s, rfl, holdersKept_of_same rfl rfl, (SameMemory.refl s).shrinks, by simp⟩
  | cons n l ih =>
    obtain ⟨u, hu, hk⟩ := h.mmapUnmapPage_total ho (hfile n List.mem_cons_self)
    have hrel := h.mmapUnmapPage_released hu
    obtain ⟨L, hpath, -⟩ := hrel.path
    obtain ⟨t, ht, hk', hsh, hgone⟩ := ih (hrel.consistent h) (hpath.slotsOwned h ho)
      fun n hn i hi e he hup => by
        obtain ⟨f, hf, hopen⟩ := hfile n (List.mem_cons_of_mem _ hn) i (hrel.shrinks.spt p i hi) e
          (hrel.shrinks.spte i e he) hup
        exact ⟨f, hf, (hk.file f).symm ▸ hopen⟩
    refine ⟨t, by rw [run_cons, hu]; exact ht, hk.trans hk', hrel.shrinks.trans hsh, ?_⟩
    intro k hkl i hi e he
    rcases List.mem_cons.mp hkl with rfl | hkl
    · exact h.mmapUnmapPage_gone hu (hsh.spt p i hi) (hsh.spte i e he)
    · exact hgone k hkl i hi e he

/-- An entry of a process can be destroyed. -/
private theorem Consistent.sptDestroyFunc_total (h : Consistent .idle s) (ho : SlotsOwned D s)
    (hi : i ∈ s.spt p) :
    ∃ t, sptDestroyFunc p i { s with spt := Function.update s.spt p ((s.spt p).erase i) } =
      some t ∧ HoldersKept s t := by
  obtain ⟨e, he, -⟩ := h.entry p i hi
  have hframe : ∃ t, freeFrameOf p e
      { s with spt := Function.update s.spt p ((s.spt p).erase i) } = some t ∧
        HoldersKept s t ∧ t.swapBitmap = s.swapBitmap := by
    unfold freeFrameOf
    split
    · exact ⟨_, rfl, holdersKept_of_same rfl rfl, rfl⟩
    · next v hv =>
      obtain ⟨-, fr, pd, hfr, -, hpd, -⟩ := h.resident p i e v hi he hv
      obtain ⟨t, ht, hk, hb⟩ := h.frameFree_total hfr (pagedirClearPage pd e.upage) hpd
        (.refl { s with spt := Function.update s.spt p ((s.spt p).erase i) })
      exact ⟨t, by simp [hpd, ht], hk.spt, hb⟩
  obtain ⟨t, ht, hk, hb⟩ := hframe
  obtain ⟨u, hu, hk'⟩ := freeSlotOf_total ho he hb
  refine ⟨u.freeSpte i, by simp [sptDestroyFunc, he, ht, hu], (hk.trans hk').trans ?_⟩
  exact holdersKept_of_same rfl rfl

/-! ## What the pages of a process are read from -/

/-- The page of an entry is read from the executable, or from the file of a mapping it is in. -/
def Holdings.Backs (h : Holdings) (e : SptEntry) : Prop :=
  ∃ f, e.file = some f ∧ (h.executable = some f ∨
    ∃ m ∈ h.mmapList, m.file = f ∧ ∃ n < mmapPageCount m.size, e.upage = mmapPage m.addr n)

/-- Every page of a mapping has an entry with the file of the mapping, and every entry that is
to be read from a file has one that its process holds; process `x` has closed its executable. -/
structure PagesOk (x : Option Pid) (s : VmState) : Prop where
  mapped : ∀ p, ∀ m ∈ s.mmapList p, ∀ n < mmapPageCount m.size,
    ∃ i ∈ s.spt p, ∃ e, s.spte i = some e ∧ e.upage = mmapPage m.addr n ∧ e.file = some m.file
  backed : ∀ p i e, x ≠ some p → i ∈ s.spt p → s.spte i = some e → e.type = .file →
    (s.holdings p).Backs e

private theorem backs_congr (hx : t.executable p = s.executable p)
    (hm : t.mmapList p = s.mmapList p) : (t.holdings p).Backs e ↔ (s.holdings p).Backs e := by
  simp [Holdings.Backs, VmState.holdings, hx, hm]

/-- Entries that have not changed are still in order. -/
private theorem PagesOk.congr {y : Option Pid} (h : PagesOk x s) (hspt : t.spt = s.spt)
    (hspte : t.spte = s.spte) (he : t.executable = s.executable) (hl : t.mmapList = s.mmapList)
    (hxy : ∀ q, x = some q → y = some q) : PagesOk y t where
  mapped := by
    rw [hl, hspt, hspte]
    exact h.mapped
  backed := by
    rw [hspt, hspte]
    intro p i e hy hi hs ht
    exact (backs_congr (congrFun he p) (congrFun hl p)).mpr (h.backed p i e (mt (hxy p) hy) hi hs ht)

/-- One entry has changed, but not what it is read from. -/
private theorem PagesOk.backed_update {e' : SptEntry} (h : PagesOk x s) (he : s.spte i = some e)
    (hspt : t.spt = s.spt) (hspte : t.spte = Function.update s.spte i (some e'))
    (hk : HandlesKept s t) (hty : e'.type = .file → e.type = .file) (hf : e'.file = e.file)
    (hup : e'.upage = e.upage) (q : Pid) (j : SpteAddr) (e1 : SptEntry) (hx : x ≠ some q)
    (hj : j ∈ t.spt q) (he1 : t.spte j = some e1) (ht : e1.type = .file) :
    (t.holdings q).Backs e1 := by
  rw [backs_congr (congrFun hk.executable q) (congrFun hk.mmapList q)]
  rw [hspt] at hj
  rw [hspte] at he1
  by_cases hji : j = i
  · subst hji
    rw [Function.update_self, Option.some.injEq] at he1
    subst he1
    have hold := h.backed q j e hx hj he (hty ht)
    rwa [Holdings.Backs, ← hf, ← hup] at hold
  · rw [Function.update_of_ne hji] at he1
    exact h.backed q j e1 hx hj he1 ht

private theorem PagesOk.pageEffect {fl fl' : Flight} {L : List Nat} (h : PagesOk x s)
    (hc : Consistent fl s) (hp : PageEffect fl s L fl' t) (hk : HandlesKept s t) : PagesOk x t where
  mapped := by
    have hx := hp.extends
    intro q m hm n hn
    rw [hk.mmapList] at hm
    obtain ⟨i, hi, e, he, hup, hf⟩ := h.mapped q m hm n hn
    obtain ⟨e', he', hup', -, hf'⟩ := hx.spte i e he
    exact ⟨i, hx.spt q i hi, e', he', hup'.trans hup, hf'.trans hf⟩
  backed := by
    cases hp with
    | quiet hm | touch _ _ hm | pin _ _ hm | palloc _ _ hm | push _ hm | discard _ hm =>
      exact (h.congr hm.spt hm.spte hk.executable hk.mmapList fun _ => id).backed
    | @insert _ _ _ p i e hi _ _ _ _ _ hb hm =>
      intro q j e' hx hj he' ht
      rw [backs_congr (congrFun hk.executable q) (congrFun hk.mmapList q)]
      have hnot : ∀ q, i ∉ s.spt q := fun q hmem => by
        obtain ⟨e1, he1, -⟩ := hc.entry q i hmem
        cases hi.symm.trans he1
      rw [hm.spt] at hj
      rw [hm.spte] at he'
      by_cases hji : j = i
      · subst hji
        have hqp : q = p := by
          by_contra hqp
          exact hnot q (by simpa [hqp] using hj)
        have hee : e = e' := by simpa [VmState.newSpte] using he'
        subst hqp hee
        obtain ⟨hz, -⟩ | ⟨f, -, hf, hex⟩ := hb
        · cases hz.symm.trans ht
        · exact ⟨f, hf, .inl hex⟩
      · refine h.backed q j e' hx ?_ (by simpa [VmState.newSpte, hji] using he') ht
        by_cases hqp : q = p
        · subst hqp
          simpa [hji] using hj
        · simpa [hqp] using hj
    | evictClean _ _ _ he _ _ _ _ hm | evictKeep _ _ _ he _ _ _ _ hm =>
      exact h.backed_update he hm.spt hm.spte hk id rfl rfl
    | evictAlloc _ _ _ he _ _ _ _ _ _ hm =>
      exact h.backed_update he hm.spt hm.spte hk (by simp) rfl rfl
    | attach _ _ he _ _ _ hm | attachFree _ _ he _ _ _ _ hm =>
      exact h.backed_update he hm.spt hm.spte hk id rfl rfl

/-! ## Unmapping and exiting -/

/-- What holds in every reachable state, and while process `x` is ending. -/
structure Orderly (x : Option Pid) (s : VmState) : Prop where
  consistent : Consistent .idle s
  slots : ∃ D, SlotsOwned D s
  files : FilesOk x s
  pages : PagesOk x s

/-- The entry at a page of a mapping is backed by the file of the mapping. -/
private theorem Orderly.file_of_page (h : Orderly x s) {m : MmapEntry} (hm : m ∈ s.mmapList p)
    {n : Nat} (hn : n < mmapPageCount m.size) (hi : i ∈ s.spt p) (he : s.spte i = some e)
    (hup : e.upage = mmapPage m.addr n) : e.file = some m.file := by
  obtain ⟨j, hj, e', he', hup', hf⟩ := h.pages.mapped p m hm n hn
  cases h.consistent.upage_inj p i j e e' hi hj he he' (hup.trans hup'.symm)
  cases he.symm.trans he'
  exact hf

/-- Two mappings of a process have different handles. -/
private theorem FilesOk.mapping_inj (h : FilesOk x s) (hp : (s.pagedir p).isSome) {m m' : MmapEntry}
    (hm : m ∈ s.mmapList p) (hm' : m' ∈ s.mmapList p) (hf : m'.file = m.file) : m' = m := by
  have heq := h.owned.unique (p, .mapping m') (p, .mapping m) m.file ⟨hp, hm', hf⟩ ⟨hp, hm, rfl⟩
  simpa using heq

/-- The entries of the pages of mapping `m` have ended, and no others. -/
structure Unmapped (p : Pid) (m : MmapEntry) (s t : VmState) : Prop where
  shrinks : Shrinks s t
  kept : ∀ q i e, i ∈ s.spt q → s.spte i = some e →
    q ≠ p ∨ (∀ n < mmapPageCount m.size, e.upage ≠ mmapPage m.addr n) →
    i ∈ t.spt q ∧ t.spte i = some e
  gone : ∀ i ∈ t.spt p, ∀ e, t.spte i = some e →
    ∀ n < mmapPageCount m.size, e.upage ≠ mmapPage m.addr n

/-- `mmap_unmap` with the id of a mapping: it closes the handle of the mapping and no other. -/
theorem Orderly.unmap_total (h : Orderly x s) (hp : (s.pagedir p).isSome) {mapid : Int}
    {m : MmapEntry} (hfind : (s.mmapList p).find? (fun m => (m.mapid : Int) == mapid) = some m) :
    ∃ t, mmapUnmap p mapid s = some t ∧ Orderly x t ∧ Unmapped p m s t ∧
      t.holdings = Function.update s.holdings p { s.holdings p with
        mmapList := (s.mmapList p).eraseP fun m => (m.mapid : Int) == mapid } ∧
      ∀ g, (t.file g).isSome = true ↔ (s.file g).isSome = true ∧ g ≠ m.file := by
  obtain ⟨D, ho⟩ := h.slots
  have hm : m ∈ s.mmapList p := List.mem_of_find?_eq_some hfind
  have hhas : (s.holdings p).Has (x = some p) (.mapping m) m.file := ⟨hp, hm, rfl⟩
  have hopen := h.files.isSome hhas
  obtain ⟨u, hu, hk, -, hgone⟩ := h.consistent.unmapRange_total m.addr (p := p)
    (l := List.range (mmapPageCount m.size)) ho fun n hn i hi e he hup =>
      ⟨m.file, h.file_of_page hm (List.mem_range.mp hn) hi he hup, hopen⟩
  obtain ⟨v, hv, hcounts⟩ := fileClose_of_counted (hk.counts h.files.counts)
    ((hk.file m.file).symm ▸ hopen)
  have honly := onlyFiles_fileClose hv
  have hhv : v.holdings = s.holdings := (holdings_onlyFiles honly).trans hk.holdings
  have hlist : v.mmapList = s.mmapList := honly.mmapList.trans hk.mmapList
  have hstep : mmapUnmap p mapid s = some { v with
      mmapList := Function.update v.mmapList p
        ((s.mmapList p).eraseP fun m => (m.mapid : Int) == mapid) } := by
    simp [mmapUnmap, hfind, hu, hv, hlist]
  have hH := holdings_setMmapList v p ((s.mmapList p).eraseP fun m => (m.mapid : Int) == mapid)
  rw [hhv] at hH
  have hfile : ∀ g, (v.file g).isSome = true ↔ (s.file g).isSome = true ∧ g ≠ m.file := by
    intro g
    rw [(file_fileClose hv).2, ← hk.file]
    by_cases hg : g = m.file <;> simp [hg]
  have hsub : ∀ q m', m' ∈ Function.update v.mmapList p
      ((s.mmapList p).eraseP fun m => (m.mapid : Int) == mapid) q ↔
      m' ∈ s.mmapList q ∧ (q = p → m' ≠ m) := by
    intro q m'
    by_cases hq : q = p
    · subst hq
      simpa [Holdings.Has, VmState.holdings, hp] using
        Holdings.has_unmap (c := False) (k := .mapping m') (g := m'.file) (h.files.tables q) hfind
    · simp [hq, hlist]
  have hrel := h.consistent.mmapUnmap_released hstep
  have hun : Unmapped p m s { v with
      mmapList := Function.update v.mmapList p
        ((s.mmapList p).eraseP fun m => (m.mapid : Int) == mapid) } := by
    refine ⟨hrel.shrinks, fun q i e hi he hor => hrel.kept q i e hi he (hor.imp_right ?_),
      fun i hi e he n hn => hgone n (List.mem_range.mpr hn) i (honly.spt ▸ hi) e (honly.spte ▸ he)⟩
    rintro hout ⟨m1, hm1, n, hn, hup⟩
    cases hfind.symm.trans hm1
    exact hout n hn hup
  obtain ⟨L, hpath, -⟩ := hrel.path
  refine ⟨_, hstep, ⟨hrel.consistent h.consistent, ⟨_, hpath.slotsOwned h.consistent ho⟩,
    h.files.close hhas hfile hcounts hH ⟨(h.files.tables p).range,
      (h.files.tables p).ids.sublist ((List.eraseP_sublist ..).map _),
      fun m' hm' => (h.files.tables p).below m' (List.mem_of_mem_eraseP hm')⟩ (fun _ _ => Iff.rfl)
      fun k g => Holdings.has_unmap (h.files.tables p) hfind, ?_, ?_⟩, hun, hH, hfile⟩
  · intro q m' hm' n hn
    obtain ⟨hmem, hne⟩ := (hsub q m').mp hm'
    obtain ⟨i, hi, e, he, hup, hf⟩ := h.pages.mapped q m' hmem n hn
    have hkeep := hun.kept q i e hi he ?_
    · exact ⟨i, hkeep.1, e, hkeep.2, hup, hf⟩
    · by_cases hq : q = p
      · subst hq
        refine .inr fun n1 hn1 hup1 => hne rfl ?_
        have hfile := h.file_of_page hm hn1 hi he hup1
        exact h.files.mapping_inj hp hm hmem (Option.some.inj (hf.symm.trans hfile))
      · exact .inl hq
  · intro q i e hx hi he ht
    obtain ⟨f, hf, hback⟩ := h.pages.backed q i e hx (hun.shrinks.spt q i hi)
      (hun.shrinks.spte i e he) ht
    refine ⟨f, hf, hback.imp (fun hex => ?_) ?_⟩
    · exact (congrArg Holdings.executable (congrFun hhv q)).trans hex
    · rintro ⟨m', hm', hmf, n, hn, hup⟩
      refine ⟨m', (hsub q m').mpr ⟨hm', ?_⟩, hmf, n, hn, hup⟩
      rintro rfl rfl
      exact hun.gone i hi e he n hn hup

/-- `mmap_unmap` never fails: an id of no mapping does nothing. -/
theorem Orderly.mmapUnmap_total (h : Orderly x s) (hp : (s.pagedir p).isSome) (mapid : Int) :
    ∃ t, mmapUnmap p mapid s = some t ∧ Orderly x t ∧
      t.holdings = Function.update s.holdings p { s.holdings p with
        mmapList := (s.mmapList p).eraseP fun m => (m.mapid : Int) == mapid } ∧
      ∀ g, (t.file g).isSome = true ↔ (s.file g).isSome = true ∧
        ((s.mmapList p).find? fun m => (m.mapid : Int) == mapid).map MmapEntry.file ≠ some g := by
  cases hfind : (s.mmapList p).find? fun m => (m.mapid : Int) == mapid with
  | none =>
    refine ⟨s, by rw [mmapUnmap, hfind], h, ?_, by simp⟩
    rw [List.eraseP_of_forall_not (List.find?_eq_none.mp hfind)]
    exact (Function.update_eq_self p s.holdings).symm
  | some m =>
    obtain ⟨t, ht, ho, -, hH, hfile⟩ := h.unmap_total hp hfind
    exact ⟨t, ht, ho, hH, fun g => by simpa [ne_comm] using hfile g⟩

private theorem Orderly.munmapAll_total {fuel : Nat} (h : Orderly x s) (hp : (s.pagedir p).isSome)
    (hfuel : (s.mmapList p).length ≤ fuel) :
    ∃ t, munmapAll p fuel s = some t ∧ Orderly x t ∧
      t.holdings = Function.update s.holdings p { s.holdings p with mmapList := [] } := by
  have hdone : s.mmapList p = [] →
      s.holdings = Function.update s.holdings p { s.holdings p with mmapList := [] } := by
    intro hnil
    rw [← hnil]
    exact (Function.update_eq_self p s.holdings).symm
  induction fuel generalizing s with
  | zero =>
    have hnil := List.eq_nil_of_length_eq_zero (Nat.le_zero.mp hfuel)
    exact ⟨s, by simp [munmapAll, hnil], h, hdone hnil⟩
  | succ fuel ih =>
    unfold munmapAll
    split
    · next hnil => exact ⟨s, rfl, h, hdone hnil⟩
    · next m ms hlist =>
      obtain ⟨u, hu, ho, hH, -⟩ := h.mmapUnmap_total hp m.mapid
      have hpu : u.holdings p = { s.holdings p with mmapList := ms } := by
        rw [hH, Function.update_self, hlist, List.eraseP_cons_of_pos (by simp)]
      have hmu : u.mmapList p = ms := congrArg Holdings.mmapList hpu
      rw [hlist, List.length_cons] at hfuel
      obtain ⟨t, ht, hot, hH'⟩ := ih ho ((congrArg Holdings.live hpu).trans hp) (by rw [hmu]; omega)
        fun hnil => by rw [← hnil]; exact (Function.update_eq_self p u.holdings).symm
      refine ⟨t, by rw [hu]; exact ht, hot, ?_⟩
      rw [hH', hpu, hH, Function.update_idem]

private theorem Orderly.sameMemory {y : Option Pid} (h : Orderly x s) (hm : SameMemory s t)
    (hf : FilesOk y t) (he : t.executable = s.executable) (hl : t.mmapList = s.mmapList)
    (hxy : ∀ q, x = some q → y = some q) : Orderly y t := by
  obtain ⟨D, hD⟩ := h.slots
  exact ⟨h.consistent.congr hm, ⟨_, (hm.path .idle).slotsOwned h.consistent hD⟩, hf,
    h.pages.congr hm.spt hm.spte he hl hxy⟩

private theorem Orderly.closeExecutable_total (h : Orderly none s) (hp : (s.pagedir p).isSome) :
    ∃ t, closeExecutable p s = some t ∧ Orderly (some p) t ∧ t.holdings = s.holdings ∧
      ∀ f, t.executable p = some f → t.file f = none := by
  have hclosed : ∀ k' g, (s.holdings p).Has (some p = some p) k' g ↔
      (s.holdings p).Has (none = some p) k' g ∧ k' ≠ .executable := by
    simpa using fun k' g => Holdings.has_closed (h := s.holdings p)
  unfold closeExecutable
  cases hx : s.executable p with
  | none =>
    refine ⟨s, rfl, h.sameMemory (.refl s) ⟨h.files.owned.congr ?_ fun _ => Iff.rfl,
      h.files.tables, h.files.counts⟩ rfl rfl (by simp), rfl, by simp [hx]⟩
    rintro ⟨q, k⟩ f
    by_cases hq : q = p
    · subst hq
      refine (hclosed k f).trans (and_iff_left_of_imp ?_)
      rintro hk rfl
      cases hx.symm.trans hk.2.2
    · simp [Holds, Ne.symm hq]
  | some f =>
    have hhas : (s.holdings p).Has (none = some p) .executable f := ⟨hp, by simp, hx⟩
    obtain ⟨t, ht, hcounts⟩ := fileClose_of_counted h.files.counts (h.files.isSome hhas)
    have honly := onlyFiles_fileClose ht
    have hH := holdings_onlyFiles honly
    refine ⟨t, fileAllowWrite_bind_fileClose ht, h.sameMemory (sameMemory_fileClose ht)
      (h.files.close hhas (fun g => ?_) hcounts (hH.trans (Function.update_eq_self p _).symm)
        (h.files.tables p) (by simp [eq_comm]) hclosed) honly.executable honly.mmapList (by simp),
      hH, fun g hg => ?_⟩
    · rw [(file_fileClose ht).2]
      by_cases hg : g = f <;> simp [hg]
    · rw [honly.executable, hx] at hg
      cases hg
      rw [(file_fileClose ht).2, Function.update_self]

/-- A descriptor has been closed. -/
private theorem Orderly.closed {fd : Nat} (h : Orderly x s) (hp : (s.pagedir p).isSome)
    (hf : s.fdTable p fd = some f) (honly : OnlyFiles (setFd p fd none s) t)
    (hfile : t.file = Function.update s.file f none) (hcounts : CountsOk t) :
    Orderly x t ∧ t.holdings = Function.update s.holdings p { s.holdings p with
      fdTable := Function.update (s.fdTable p) fd none } := by
  have hm : SameMemory s t := by
    rw [honly]
    exact ⟨rfl, rfl, rfl, rfl, rfl, rfl, rfl, rfl, rfl, rfl⟩
  have hH := (holdings_onlyFiles honly).trans (holdings_setFd s p fd none)
  refine ⟨h.sameMemory hm (h.files.close (k := .descriptor fd) ⟨hp, hf⟩ (fun g => ?_) hcounts hH
    { h.files.tables p with range := fun n g hn => ?_ } (fun _ _ => Iff.rfl)
    fun k g => Holdings.has_closeFd fd) honly.executable honly.mmapList fun _ => id, hH⟩
  · rw [hfile]
    by_cases hg : g = f <;> simp [hg]
  · by_cases hnfd : n = fd
    · simp [hnfd] at hn
    · exact (h.files.tables p).range n g ((Function.update_of_ne hnfd _ _).symm.trans hn)

/-- The descriptor loop of `process_exit`, after the executable has been closed. -/
private theorem Orderly.closeFds_total {l : List Nat} (h : Orderly (some p) s)
    (hp : (s.pagedir p).isSome) (hx : ∀ f, s.executable p = some f → s.file f = none) :
    ∃ t, run (closeFd p) s l = some t ∧ Orderly (some p) t ∧ t.holdings = Function.update s.holdings p
      { s.holdings p with fdTable := fun fd => if fd ∈ l then none else s.fdTable p fd } := by
  induction l generalizing s with
  | nil => exact ⟨s, rfl, h, by simp [VmState.holdings]⟩
  | cons fd l ih =>
    have hone : ∃ u, closeFd p s fd = some u ∧ Orderly (some p) u ∧
        (∀ f, u.executable p = some f → u.file f = none) ∧
        u.holdings = Function.update s.holdings p { s.holdings p with
          fdTable := Function.update (s.fdTable p) fd none } := by
      unfold closeFd
      split
      · next hnone =>
        refine ⟨s, rfl, h, hx, ?_⟩
        rw [show Function.update (s.fdTable p) fd none = s.fdTable p from
          Function.update_eq_self_iff.mpr hnone.symm]
        exact (Function.update_eq_self p s.holdings).symm
      · next f hf =>
        have hopen := h.files.isSome (p := p) (k := .descriptor fd) ⟨hp, hf⟩
        split
        · next hex => simp [hx f hex] at hopen
        · obtain ⟨t, ht, hcounts⟩ := fileClose_of_counted h.files.counts hopen
          have honly := onlyFiles_fileClose ht
          have hfile := (file_fileClose ht).2
          obtain ⟨ho, hH⟩ := h.closed (t := setFd p fd none t) hp hf
            (by unfold OnlyFiles setFd; rw [honly]) hfile hcounts
          refine ⟨_, by rw [ht]; rfl, ho, fun g hg => ?_, hH⟩
          rw [show (setFd p fd none t).file = t.file from rfl, hfile]
          have hsg : s.executable p = some g := honly.executable ▸ hg
          by_cases hgf : g = f <;> simp [hgf, hx g hsg]
    obtain ⟨u, hu, ho, hxu, hH⟩ := hone
    have hpu : u.holdings p = { s.holdings p with
        fdTable := Function.update (s.fdTable p) fd none } := by rw [hH, Function.update_self]
    obtain ⟨t, ht, hot, hH'⟩ := ih ho ((congrArg Holdings.live hpu).trans hp) hxu
    refine ⟨t, by rw [run_cons, hu]; exact ht, hot, ?_⟩
    have hfds : (fun n => if n ∈ l then none else u.fdTable p n) =
        fun n => if n ∈ fd :: l then none else s.fdTable p n := by
      funext n
      rw [show u.fdTable p = _ from congrArg Holdings.fdTable hpu]
      by_cases hn : n = fd <;> simp [hn]
    rw [hH', hfds, hpu, hH, Function.update_idem]

private theorem Orderly.hashDestroy_total (h : Orderly (some p) s) (hnil : s.mmapList p = []) :
    ∃ t, hashDestroy p s = some t ∧ Orderly (some p) t ∧ HoldersKept s t := by
  unfold hashDestroy
  generalize hl : s.spt p = l
  induction l generalizing s with
  | nil => exact ⟨s, rfl, h, holdersKept_of_same rfl rfl⟩
  | cons i l ih =>
    obtain ⟨D, hD⟩ := h.slots
    have hi : i ∈ s.spt p := by simp [hl]
    obtain ⟨u, hu, hk⟩ := h.consistent.sptDestroyFunc_total hD hi
    obtain ⟨e, L, he, heff, -, hspt⟩ := sptDestroyFunc_effect hu
    have hrel := heff.released (V := fun _ => True) (P := fun _ => True) h.consistent hi he trivial
      fun _ => trivial
    obtain ⟨L', hpath, -⟩ := hrel.path
    have ho : Orderly (some p) u := by
      refine ⟨hrel.consistent h.consistent, ⟨_, hpath.slotsOwned h.consistent hD⟩,
        h.files.kept hk, fun q m hm n hn => ?_, fun q j e' hq hj he' ht => ?_⟩
      · rw [hk.mmapList] at hm
        obtain ⟨j, hj, e', he', hup, hf⟩ := h.pages.mapped q m hm n hn
        obtain ⟨hj', hje⟩ := hrel.kept q j e' hj he' (.inl (by rintro rfl; simp [hnil] at hm))
        exact ⟨j, hj', e', hje, hup, hf⟩
      · rw [hk.holdings]
        exact h.pages.backed q j e' hq (hrel.shrinks.spt q j hj) (hrel.shrinks.spte j e' he') ht
    obtain ⟨t, ht, hot, hk'⟩ := ih ho (hk.mmapList ▸ hnil) (by rw [hspt, hl, List.erase_cons_head])
    exact ⟨t, by rw [run_cons, hu]; exact ht, hot, hk.trans hk'⟩

/-- A process that runs can exit. Nothing of it is left, and the others keep what they have. -/
theorem Orderly.exitProcess_total (h : Orderly none s) (hp : (s.pagedir p).isSome) :
    ∃ t, exitProcess p s = some t ∧ Orderly none t ∧ (t.holdings p).live = false ∧
      ∀ q ≠ p, t.holdings q = s.holdings q := by
  obtain ⟨s1, hs1, h1, hH1⟩ := h.munmapAll_total hp (Nat.le_refl _)
  have hp1 : (s1.pagedir p).isSome = true := by
    have hlive := congrArg Holdings.live (congrFun hH1 p)
    rw [Function.update_self] at hlive
    exact hlive.trans hp
  obtain ⟨s2, hs2, h2, hH2, hx2⟩ := h1.closeExecutable_total hp1
  have hp2 : (s2.pagedir p).isSome = true := (congrArg Holdings.live (congrFun hH2 p)).trans hp1
  obtain ⟨s3, hs3, h3, hH3⟩ := h2.closeFds_total (l := List.range' 2 (MAX_FD_COUNT - 2)) hp2 hx2
  have hnil3 : s3.mmapList p = [] := by
    have hlist := congrArg Holdings.mmapList (congrFun hH3 p)
    rw [hH2, hH1, Function.update_self, Function.update_self] at hlist
    exact hlist
  obtain ⟨s4, hs4, h4, hk4⟩ := h3.hashDestroy_total hnil3
  have hexit : processExit p s = some s4 := by simp [processExit, hs1, hs2, hs3, hs4]
  have hspt := (h.consistent.processExit_released hexit).2
  have hfree : freePagedir p s4 =
      some { s4 with pagedir := Function.update s4.pagedir p none } := by
    unfold freePagedir
    cases hpd : s4.pagedir p with
    | none => rw [Function.update_eq_self_iff.mpr hpd.symm]
    | some pd =>
      dsimp only
      rw [pagedirDestroy, h4.consistent.presentPages_eq_nil hspt hpd]
      rfl
  have hH : { s4 with pagedir := Function.update s4.pagedir p none }.holdings =
      Function.update s4.holdings p { s4.holdings p with live := false } := by
    funext q
    by_cases hq : q = p
    · subst hq
      simp [VmState.holdings]
    · simp [VmState.holdings, hq]
  have hnone : ∀ k f, ¬ (s4.holdings p).Has True k f := by
    intro k f hk
    rw [hk4.holdings] at hk
    cases k with
    | executable => exact hk.2.1 trivial
    | descriptor fd =>
      obtain ⟨hlo, hhi⟩ := (h3.files.tables p).range fd f hk.2
      have hmem : fd ∈ List.range' 2 (MAX_FD_COUNT - 2) := by
        rw [List.mem_range'_1]
        omega
      rw [hH3, Function.update_self] at hk
      simp [Holdings.Has, hmem] at hk
    | mapping m => simp [Holdings.Has, VmState.holdings, hnil3] at hk
  obtain ⟨D, hD⟩ := h.slots
  have hdone : exitProcess p s = some { s4 with pagedir := Function.update s4.pagedir p none } := by
    rw [exitProcess, hexit, Option.bind_some, hfree]
  have hrel := (h.consistent.exitProcess_released hdone).1
  obtain ⟨L, hpath, -⟩ := hrel.path
  refine ⟨_, hdone, ⟨hrel.consistent h.consistent, ⟨_, hpath.slotsOwned h.consistent hD⟩,
    h4.files.gone hnone rfl hH, h4.pages.mapped, fun q i e _ hi he ht => ?_⟩, by rw [hH]; simp,
    fun q hq => ?_⟩
  · have hq : q ≠ p := by
      rintro rfl
      rw [show (_ : VmState).spt q = [] from hspt] at hi
      cases hi
    exact h4.pages.backed q i e (by simpa using hq.symm) hi he ht
  · rw [hH, Function.update_of_ne hq, hk4.holdings, hH3, Function.update_of_ne hq, hH2, hH1,
      Function.update_of_ne hq]

/-! ## Every reachable state -/

/-- Nothing but positions in files and bytes of inodes has changed. -/
theorem Orderly.kept (h : Orderly x s) (hm : SameMemory s t) (hk : HoldersKept s t) :
    Orderly x t :=
  h.sameMemory hm (h.files.kept hk)
    (funext fun q => congrArg Holdings.executable (congrFun hk.holdings q)) hk.mmapList fun _ => id

private theorem Orderly.page {L : List Nat} (h : Orderly x s)
    (hp : PagePath (.idle, s) L (.idle, t)) : Orderly x t := by
  obtain ⟨D, hD⟩ := h.slots
  have hpages := Base.Path.preserves (P := fun _ a => Consistent a.1 a.2 ∧ PagesOk x a.2)
    (fun he ha => ⟨he.1.consistent ha.1, ha.2.pageEffect ha.1 he.1 he.2⟩) (D := []) hp
    ⟨h.consistent, h.pages⟩
  exact ⟨hpages.1, ⟨_, hp.effectPath.slotsOwned h.consistent hD⟩,
    h.files.kept (hp.handlesKept.holders hp.extends.pagedir), hpages.2⟩

private theorem Orderly.mmuStore {uaddr : Addr} {byte : UInt8} (h : Orderly x s)
    (hs : mmuStore p uaddr byte s = some t) : Orderly x t := by
  obtain ⟨D, hD⟩ := h.slots
  have heff := mmuStore_effect hs
  have hlive := (extends_mmuStore hs).pagedir
  refine ⟨heff.consistent h.consistent, ⟨_, heff.slotsOwned h.consistent hD⟩, ?_, ?_⟩ <;>
    simp only [Vm.mmuStore, Option.bind_eq_bind, Option.bind_eq_some_iff] at hs <;>
    obtain ⟨pd, -, k, -, hs⟩ := hs <;> split at hs <;> cases hs
  · refine h.files.kept (holdersKept_of_same rfl (funext fun q => ?_))
    rw [VmState.holdings, hlive]
    rfl
  · exact h.pages.congr rfl rfl rfl rfl fun _ => id

/-- `syscall_open` gives the new handle to a free descriptor, or leaves no handle behind. -/
theorem Orderly.syscallOpen_total (h : Orderly x s) (hp : (s.pagedir p).isSome)
    (inode : Option InodeNo) :
    ∃ t, syscallOpen p inode s = some t ∧ Orderly x t ∧
      (t.fdTable = s.fdTable → ∀ g, (t.file g).isSome = (s.file g).isSome) := by
  have honly := onlyFiles_filesysOpen inode s
  have hm := sameMemory_filesysOpen inode s
  have hfile := file_filesysOpen inode s
  have hcounts := counted_filesysOpen h.files.counts inode
  unfold Vm.syscallOpen
  generalize filesysOpen inode s = r at honly hm hfile hcounts
  obtain ⟨o, u⟩ := r
  rcases hfile with ⟨hnone, hsame⟩ | ⟨f, n, -, hsome, hfresh, hnew⟩
  · dsimp only at hnone hsame
    subst hnone
    have hk : HoldersKept s u := ⟨fun g => by rw [hsame], fun _ => hcounts, holdings_onlyFiles honly⟩
    exact ⟨u, rfl, h.kept hm hk, fun _ => hk.file⟩
  · dsimp only at hsome hnew hm honly hcounts
    subst hsome
    cases hfd : freeFd u p with
    | some fd =>
      have hfree : s.fdTable p fd = none := by
        rw [← honly.fdTable]
        simpa using List.find?_some hfd
      have hmem := List.mem_range'_1.mp (List.mem_of_find?_eq_some hfd)
      have hH := holdings_setFd u p fd (some f)
      rw [holdings_onlyFiles honly, honly.fdTable] at hH
      have ho : FilesOk x (setFd p fd (some f) u) := by
        refine h.files.acquire (f := f) (k := .descriptor fd) hfresh (fun g => ?_) hcounts hH
          { h.files.tables p with range := fun n g hn => ?_ } fun k g =>
            Holdings.has_openFd hp hfree
        · by_cases hg : g = f <;> simp [setFd, hnew, hg]
        · by_cases hnfd : n = fd
          · rw [hnfd]
            omega
          · exact (h.files.tables p).range n g ((Function.update_of_ne hnfd _ _).symm.trans hn)
      have hms : SameMemory s (setFd p fd (some f) u) := { hm with }
      refine ⟨setFd p fd (some f) u, by dsimp only; rw [hfd],
        h.sameMemory hms ho honly.executable honly.mmapList fun _ => id, fun hsame => ?_⟩
      have hat := congrFun (congrFun hsame p) fd
      simp [setFd, hfree] at hat
    | none =>
      obtain ⟨t, ht, hct⟩ := fileClose_of_counted (f := f) hcounts (by simp [hnew])
      have hback : t.file = s.file := by
        rw [(file_fileClose ht).2, hnew, Function.update_idem, Function.update_eq_self_iff]
        exact hfresh.symm
      have hk : HoldersKept s t := ⟨fun g => by rw [hback], fun _ => hct,
        holdings_onlyFiles (honly.trans (onlyFiles_fileClose ht))⟩
      exact ⟨t, by dsimp only; rw [hfd]; exact ht, h.kept (hm.trans (sameMemory_fileClose ht)) hk,
        fun _ => hk.file⟩

/-- `syscall_close` closes the handle of the descriptor and no other. -/
theorem Orderly.syscallClose_total (h : Orderly x s) (hp : (s.pagedir p).isSome) (fd : Int) :
    ∃ t, syscallClose p fd s = some t ∧ Orderly x t ∧
      ∀ g, (t.file g).isSome = true ↔ (s.file g).isSome = true ∧
        ¬ (0 ≤ fd ∧ fd < MAX_FD_COUNT ∧ s.fdTable p fd.toNat = some g) := by
  unfold syscallClose
  split
  · next hr =>
    split
    · next f hf =>
      have hopen := h.files.isSome (p := p) (k := .descriptor fd.toNat) ⟨hp, hf⟩
      obtain ⟨t, ht, hcounts⟩ := fileClose_of_counted (s := setFd p fd.toNat none s)
        h.files.counts hopen
      have hfile := (file_fileClose ht).2
      refine ⟨t, ht, (h.closed hp hf (onlyFiles_fileClose ht) hfile hcounts).1, fun g => ?_⟩
      rw [hfile]
      by_cases hg : g = f
      · simp [hg, hf, hr]
      · simp [hg, hf, setFd, Ne.symm hg]
    · next hnone => exact ⟨s, rfl, h, by simp [hnone]⟩
  · next hr => exact ⟨s, rfl, h, fun g => by grind⟩

/-- A new mapping has a handle of its own and an entry for each page. -/
private theorem Orderly.mapMade {fd : Int} {addr : Addr} {m : MmapEntry} {added : List SpteAddr}
    (h : Orderly x s) (hp : (s.pagedir p).isSome) (hm : MapMade p fd addr m added s t) :
    FilesOk x t ∧ PagesOk x t := by
  obtain ⟨-, file, -, -, -, hfresh, hnew⟩ := hm.handle
  have hH : t.holdings = Function.update s.holdings p { s.holdings p with
      mmapList := s.mmapList p ++ [m], nextMapid := s.nextMapid p + 1 } := by
    funext q
    by_cases hq : q = p
    · subst hq
      rw [hm.rest]
      simp [VmState.holdings, hm.mmapList, hm.nextMapid]
    · rw [hm.rest]
      simp [VmState.holdings, hm.mmapList, hm.nextMapid, hq]
  have hlist : ∀ q m', m' ∈ t.mmapList q ↔ m' ∈ s.mmapList q ∨ (q = p ∧ m' = m) := by
    intro q m'
    rw [hm.mmapList]
    by_cases hq : q = p
    · subst hq
      simp
    · simp [hq]
  have hlive : ∀ i ∈ s.spt p, (s.spte i).isSome := fun i hi => by
    obtain ⟨e, he, -⟩ := h.consistent.entry p i hi
    simp [he]
  refine ⟨h.files.acquire (f := m.file) (k := .mapping m) hfresh (fun g => ?_)
    (hm.counts h.files.counts) hH ⟨(h.files.tables p).range, ?_, ?_⟩
    (fun k g => Holdings.has_map hp _),
    fun q m' hm' n hn => ?_, fun q i e hx hi he ht => ?_⟩
  · rw [hnew]
    by_cases hg : g = m.file <;> simp [hg]
  · have hnew : ∀ m' ∈ s.mmapList p, m'.mapid ≠ m.mapid := fun m' hm' => by
      rw [hm.mapid_eq]
      exact ((h.files.tables p).below m' hm').ne
    simpa [List.nodup_append, VmState.holdings] using And.intro (h.files.tables p).ids hnew
  · intro m' hm'
    rcases List.mem_append.mp hm' with hold | hnew
    · exact ((h.files.tables p).below m' hold).trans (Nat.lt_succ_self _)
    · rw [List.mem_singleton.mp hnew, hm.mapid_eq]
      exact Nat.lt_succ_self _
  · rcases (hlist q m').mp hm' with hold | ⟨rfl, rfl⟩
    · obtain ⟨i, hi, e, he, hup, hf⟩ := h.pages.mapped q m' hold n hn
      have hadded : i ∉ added := fun hmem => by simp [hm.inserted.fresh i hmem] at he
      refine ⟨i, ?_, e, by rw [hm.inserted.other i hadded]; exact he, hup, hf⟩
      rw [hm.inserted.spt]
      by_cases hq : q = p
      · subst hq
        simp [hi]
      · simpa [hq] using hi
    · have hlt : n < added.length := hm.length.symm ▸ hn
      have hentry := hm.inserted.entry n added[n] (List.getElem?_eq_getElem hlt)
      rw [Nat.zero_add] at hentry
      exact ⟨added[n], hm.inserted.mem_spt.mpr (.inl (List.getElem_mem hlt)), _, hentry, rfl, rfl⟩
  · have hold : i ∈ s.spt q → s.spte i = some e → (t.holdings q).Backs e := by
      intro hi he
      obtain ⟨f, hf, hback⟩ := h.pages.backed q i e hx hi he ht
      refine ⟨f, hf, hback.imp (fun hex => by rw [hm.rest]; exact hex) ?_⟩
      rintro ⟨m', hm', hrest⟩
      exact ⟨m', (hlist q m').mpr (.inl hm'), hrest⟩
    by_cases hq : q = p
    · subst hq
      rcases hm.inserted.cases_entry hlive hi he with ⟨j, hj, rfl⟩ | ⟨-, hi', he'⟩
      · have hlt := (List.getElem?_eq_some_iff.mp hj).1
        exact ⟨m.file, rfl, .inr ⟨m, (hlist q m).mpr (.inr ⟨rfl, rfl⟩), rfl, 0 + j,
          by rw [← hm.length]; omega, rfl⟩⟩
      · exact hold hi' he'
    · rw [hm.inserted.spt, Function.update_of_ne hq] at hi
      refine hold hi ?_
      rwa [hm.inserted.other i fun hmem => ?_] at he
      obtain ⟨e', he', -⟩ := h.consistent.entry q i hi
      cases (hm.inserted.fresh i hmem).symm.trans he'

private theorem Orderly.mmapMap {fd : Int} {addr : Addr} {o : Option Nat} (h : Orderly x s)
    (hp : (s.pagedir p).isSome) (hm : mmapMap p fd addr s = some (o, t)) : Orderly x t := by
  have hpath := h.consistent.mmapMap_path hp hm
  obtain ⟨D, hD⟩ := h.slots
  have hrest : FilesOk x t ∧ PagesOk x t := by
    rcases h.consistent.mmapMap_spec hm with ⟨-, hfail⟩ | ⟨m, added, -, hmade⟩
    · have hH : ∃ n, s.nextMapid p ≤ n ∧ t.holdings =
          Function.update s.holdings p { s.holdings p with nextMapid := n } := by
        refine ⟨t.nextMapid p, by rcases hfail.nextMapid with hn | hn <;> simp [hn], funext fun q => ?_⟩
        by_cases hq : q = p
        · subst hq
          rw [hfail.rest]
          simp [VmState.holdings]
        · rw [hfail.rest]
          rcases hfail.nextMapid with hn | hn <;> simp [VmState.holdings, hq, hn]
      obtain ⟨n, hn, hH⟩ := hH
      exact ⟨h.files.skipIds hn (fun f => by rw [hfail.file]) (hfail.counts h.files.counts) hH,
        h.pages.congr hfail.spt hfail.spte (by rw [hfail.rest]) hfail.mmapList fun _ => id⟩
    · exact h.mapMade hp hmade
  exact ⟨hpath.consistent h.consistent, ⟨_, hpath.slotsOwned h.consistent hD⟩, hrest.1, hrest.2⟩

/-- A new process holds its executable. -/
private theorem Orderly.started {file : FileAddr} (h : Orderly none s) (hp : s.pagedir p = none)
    (hs : Started p file s t) : Orderly none t := by
  have heff := Effect.create hp hs.memory
  obtain ⟨D, hD⟩ := h.slots
  have hH : t.holdings = Function.update s.holdings p ⟨true, some file, fun _ => none, [], 1⟩ := by
    funext q
    rw [VmState.holdings, hs.memory.pagedir, hs.executable, hs.fdTable, hs.mmapList, hs.nextMapid]
    by_cases hq : q = p
    · subst hq
      simp
    · simp [hq, VmState.holdings]
  have hdead : (s.holdings p).live = false := by simp [VmState.holdings, hp]
  refine ⟨heff.consistent h.consistent, ⟨_, heff.slotsOwned h.consistent hD⟩,
    h.files.acquire (f := file) (k := .executable) hs.fresh hs.table (hs.counts h.files.counts) hH
      ⟨by simp, List.nodup_nil, by simp⟩ fun k g => ?_, fun q m hm n hn => ?_, fun q i e _ hi he ht => ?_⟩
  · have hnot : ¬ (s.holdings p).Has (none = some p) k g := fun hk => by
      simpa [hdead] using hk.isLive
    rw [or_iff_right hnot]
    cases k with
    | executable => simp [Holdings.Has, @eq_comm _ g]
    | descriptor fd | mapping m => simp [Holdings.Has]
  · rw [hs.mmapList] at hm
    rw [hs.memory.spt, hs.memory.spte]
    by_cases hq : q = p
    · simp [hq] at hm
    · exact h.pages.mapped q m (by simpa [hq] using hm) n hn
  · rw [hs.memory.spt] at hi
    rw [hs.memory.spte] at he
    have hq : q ≠ p := by
      rintro rfl
      rw [show _ = [] from h.consistent.spt_eq_nil hp] at hi
      cases hi
    rw [hH, Function.update_of_ne hq]
    exact h.pages.backed q i e (by simp) hi he ht

private theorem Orderly.exitProcess (h : Orderly none s) (hp : (s.pagedir p).isSome)
    (hx : exitProcess p s = some t) : Orderly none t := by
  obtain ⟨u, hu, ho, -⟩ := h.exitProcess_total hp
  cases hx.symm.trans hu
  exact ho

private theorem Orderly.call {c : Call} (h : Orderly none s) (hp : (s.pagedir p).isSome)
    (hc : call p c s = some t) : Orderly none t := by
  cases c with
  | enter esp =>
    cases hc
    exact h.kept ⟨rfl, rfl, rfl, rfl, rfl, rfl, rfl, rfl, rfl, rfl⟩ (holdersKept_of_same rfl rfl)
  | openFile inode =>
    obtain ⟨u, hu, ho, -⟩ := h.syscallOpen_total hp inode
    cases hu.symm.trans hc
    exact ho
  | close fd =>
    obtain ⟨u, hu, ho, -⟩ := h.syscallClose_total hp fd
    cases hu.symm.trans hc
    exact ho
  | store uaddr byte => exact h.mmuStore hc
  | fetch uaddr =>
    obtain ⟨⟨byte, _⟩, hfetch, rfl⟩ := Option.map_eq_some_iff.mp hc
    exact h.page (mmuFetch_path hfetch)
  | fault flt write r =>
    simp only [Vm.call, faultStep, Option.bind_eq_bind, Option.bind_eq_some_iff] at hc
    obtain ⟨pd, hpd, hc⟩ := hc
    split at hc
    · next hm =>
      rw [Option.bind_eq_some_iff] at hc
      obtain ⟨⟨res, u⟩, hfault, hres⟩ := hc
      obtain ⟨L, hpath, -⟩ := h.consistent.pageFault_path hpd hm hfault
      cases res with
      | resume =>
        cases hres
        exact h.page hpath
      | exit => exact (h.page hpath).exitProcess (by rw [hpath.extends.pagedir]; exact hp) hres
    · cases hc
  | vmLoadPage upage pin r =>
    obtain ⟨⟨ok, _⟩, hload, rfl⟩ := Option.map_eq_some_iff.mp hc
    obtain ⟨L, hpath, -⟩ := h.consistent.vmLoadPage_path hp hload
    exact h.page hpath
  | vmUnpinRange addr size =>
    cases hc
    exact h.page (vmUnpinRange_path .idle p addr size s)
  | mmapMap fd addr =>
    obtain ⟨⟨o, _⟩, hmap, rfl⟩ := Option.map_eq_some_iff.mp hc
    exact h.mmapMap hp hmap
  | mmapUnmap mapid =>
    obtain ⟨u, hu, ho, -⟩ := h.mmapUnmap_total hp mapid
    cases hu.symm.trans hc
    exact ho
  | exit => exact h.exitProcess hp hc

theorem Orderly.step {op : Op} (h : Orderly none s) (hs : step s op = some t) :
    Orderly none t := by
  cases op with
  | exec p inode r =>
    obtain ⟨hp, file, u, L, hstart, hpath, -⟩ := h.consistent.execProcess_path hs
    exact (h.started hp hstart).page hpath
  | call p c =>
    simp only [Vm.step] at hs
    split at hs
    · next hp => exact h.call hp hs
    · cases hs

/-- Before the first process no file is open. -/
theorem orderly_init (pages slots : Nat) (mem : KPage → PageData)
    (device : Nat → SectorData) {inode : InodeNo → Inode} (heap : Nat → Option Nat)
    (hcounts : ∀ n, (inode n).denyWriteCnt ≤ (inode n).openCnt) :
    Orderly none (VmState.init pages slots mem device inode heap) where
  consistent := consistent_init ..
  slots := ⟨[], slotsOwned_init ..⟩
  files := by
    have hnot : ∀ k f, ¬ Holds none (VmState.init pages slots mem device inode heap) k f :=
      fun k f hk => by simpa [VmState.holdings, VmState.init] using hk.isLive
    exact ⟨⟨fun k f hk => absurd hk (hnot k f), by simp [VmState.init],
      fun k _ f hk => absurd hk (hnot k f)⟩, fun p => ⟨by simp [VmState.holdings, VmState.init],
      List.nodup_nil, by simp [VmState.holdings, VmState.init]⟩, [], List.nodup_nil, by simp [handles, VmState.init],
      fun n => ⟨Nat.zero_le _, hcounts n⟩⟩
  pages := ⟨fun p m hm => by simp [VmState.init] at hm, fun p i e _ hi => by simp [VmState.init] at hi⟩

theorem orderly_run {pages slots : Nat} {mem : KPage → PageData} {device : Nat → SectorData}
    {inode : InodeNo → Inode} {heap : Nat → Option Nat} {ops : List Op}
    (hcounts : ∀ n, (inode n).denyWriteCnt ≤ (inode n).openCnt)
    (hr : run step (VmState.init pages slots mem device inode heap) ops = some s) :
    Orderly none s :=
  run_preserves (fun _ _ _ h hs => h.step hs) (orderly_init pages slots mem device heap hcounts) hr

/-! ## Pages are freed once -/

/-- Freeing pages is safe: `frame_free` of a frame on the table passes the assertion of
`palloc_free_page`; `mmap_unmap` and the end of a process run to completion, so that no page is
freed that is free; when `process_exit` is done no user page is mapped for `pagedir_destroy` to
free again; and the end of the process has freed every page it had mapped. -/
structure FreesOnce (s : VmState) : Prop where
  frameFree : ∀ f ∈ s.frameTable, (frameFree f s).isSome
  unmap : ∀ p mapid, (s.pagedir p).isSome → (mmapUnmap p mapid s).isSome
  exit : ∀ p, (s.pagedir p).isSome → (exitProcess p s).isSome
  presentPages : ∀ p t pd, processExit p s = some t → t.pagedir p = some pd → presentPages pd = []
  freed : ∀ p t pd u k, exitProcess p s = some t → s.pagedir p = some pd →
    pagedirGetPage pd u = some k → bitmapTest t.userPool k = false

private theorem Orderly.freesOnce (ho : Orderly none s) : FreesOnce s := by
  have h := ho.consistent
  constructor
  · intro f hf
    obtain ⟨fr, hfr⟩ := Option.isSome_iff_exists.mp ((h.mem_table f).mp hf)
    have hbit : bitmapTest s.userPool fr.kpage = true := (h.pool _).mpr (.inl ⟨f, fr, hfr, rfl⟩)
    simp [Vm.frameFree, hfr, hf, pallocFreeUserPage, hbit]
  · intro p mapid hp
    obtain ⟨t, ht, -⟩ := ho.mmapUnmap_total hp mapid
    rw [ht]
    rfl
  · intro p hp
    obtain ⟨t, ht, -⟩ := ho.exitProcess_total hp
    rw [ht]
    rfl
  · intro p t pd hx hpd
    obtain ⟨hrel, hnil⟩ := h.processExit_released hx
    exact (hrel.consistent h).presentPages_eq_nil hnil hpd
  · intro p t pd u k hx hpd hk
    obtain ⟨hrel, hnil⟩ := h.exitProcess_released hx
    have ht := hrel.consistent h
    by_contra hbit
    -- A page still in use is that of a frame left, whose entry is then one of `p`.
    obtain ⟨f, fr, hfr, hkf⟩ | hfl := (ht.pool k).mp (by simpa using hbit)
    · obtain ⟨q, i, e, hi, hiq, he, hef⟩ := ht.linked f fr hfr (by simp)
      obtain ⟨f', fr', i', -, -, hfr', hk', hi', hip, -⟩ := h.tablesAgree.present p pd u k hpd hk
      cases h.kpage_inj f f' fr fr' (hrel.shrinks.frame f fr hfr) hfr' (hkf.trans hk'.symm)
      cases (hrel.shrinks.frame f fr hfr).symm.trans hfr'
      cases hi.symm.trans hi'
      cases h.spt_disjoint q p i (hrel.shrinks.spt q i hiq) hip
      simp [hnil] at hiq
    · cases hfl

/-- In every state that a sequence of operations reaches, the frame table, the supplemental
page tables and the page directories agree, and pages are freed exactly once. No inode denies
more writes at the start than it is open. -/
theorem tables_agree_and_pages_freed_once {pages slots : Nat} {mem : KPage → PageData}
    {device : Nat → SectorData} {inode : InodeNo → Inode} {heap : Nat → Option Nat}
    {ops : List Op} (hcounts : ∀ n, (inode n).denyWriteCnt ≤ (inode n).openCnt)
    (hr : run step (VmState.init pages slots mem device inode heap) ops = some s) :
    TablesAgree s ∧ FreesOnce s := by
  have ho := orderly_run hcounts hr
  exact ⟨ho.consistent.tablesAgree, ho.freesOnce⟩

/-- Two processes share one page of memory, so that each load evicts, and one of them ends. -/
theorem tables_agree_and_pages_freed_once_onePage :
    ∃ s, run step (smallMachine 1 4)
        [.exec 0 (some 0) .clock, .call 0 (.store 0xbffff000 7), .exec 1 (some 0) .clock,
          .call 0 (.vmLoadPage 0xbffff000 false .clock), .call 0 .exit] = some s ∧
      TablesAgree s ∧ FreesOnce s := by
  obtain ⟨s, hs⟩ := Option.isSome_iff_exists.mp
    (show (run step (smallMachine 1 4)
      [.exec 0 (some 0) .clock, .call 0 (.store 0xbffff000 7), .exec 1 (some 0) .clock,
        .call 0 (.vmLoadPage 0xbffff000 false .clock), .call 0 .exit]).isSome = true by
      decide +kernel)
  exact ⟨s, hs, tables_agree_and_pages_freed_once (fun _ => Nat.le_refl _) hs⟩

end Pintos.Vm

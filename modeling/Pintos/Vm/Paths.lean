import Mathlib.Data.List.Find
import Pintos.Vm.Consistency

/-!
# Page functions as paths of effects

For each function of `vm/page.c`, `vm/frame.c` and the fault handler that moves pages: a
completed call is a path of effects that keep files. Slots that are given up on the way are
those of pages that could be evicted before the call.
-/

namespace Pintos.Vm

open Pintos.Base Pintos.Threads Pintos.Userprog Pintos.Lib Pintos.Filesys

variable {upage : Addr} {ok : Bool} {ev : Evicted} {flt : Fault} {fl' : Flight} {fr : Frame}
  {f v : FrameAddr} {k : KPage} {L : List Nat} {o : Option SpteAddr} {pd : PageDir} {p : Pid}
  {r : Replacement} {e : SptEntry} {i : SpteAddr}

variable {fl : Flight} {s t u : VmState}

theorem FilesKept.refl (s : VmState) : FilesKept s s :=
  ⟨fun _ file h => ⟨file, h, rfl⟩, fun _ => rfl, rfl, rfl, rfl⟩

theorem FilesKept.trans (h : FilesKept s t) (h' : FilesKept t u) : FilesKept s u := by
  refine ⟨fun f file hf => ?_, fun n => (h'.data n).trans (h.data n),
    h'.executable.trans h.executable, h'.fdTable.trans h.fdTable, h'.mmapList.trans h.mmapList⟩
  obtain ⟨file', hf', hi'⟩ := h.handle f file hf
  obtain ⟨file'', hf'', hi''⟩ := h'.handle f file' hf'
  exact ⟨file'', hf'', hi''.trans hi'⟩

theorem FilesKept.of_eq (hf : t.file = s.file) (hi : t.inode = s.inode)
    (he : t.executable = s.executable) (hfd : t.fdTable = s.fdTable)
    (hm : t.mmapList = s.mmapList) : FilesKept s t :=
  ⟨fun _ file h => ⟨file, hf ▸ h, rfl⟩, fun _ => by rw [hi], he, hfd, hm⟩

private theorem HandlesKept.refl (s : VmState) : HandlesKept s s :=
  ⟨fun _ => rfl, rfl, rfl, rfl, rfl, rfl⟩

private theorem HandlesKept.trans (h : HandlesKept s t) (h' : HandlesKept t u) : HandlesKept s u :=
  ⟨fun f => (h'.file f).trans (h.file f), h'.inode.trans h.inode,
    h'.executable.trans h.executable, h'.fdTable.trans h.fdTable, h'.mmapList.trans h.mmapList,
    h'.nextMapid.trans h.nextMapid⟩

theorem HandlesKept.of_eq (hf : t.file = s.file) (hi : t.inode = s.inode)
    (he : t.executable = s.executable) (hfd : t.fdTable = s.fdTable)
    (hm : t.mmapList = s.mmapList) (hn : t.nextMapid = s.nextMapid) : HandlesKept s t :=
  ⟨fun _ => by rw [hf], hi, he, hfd, hm, hn⟩

theorem HandlesKept.filesKept (h : HandlesKept s t) : FilesKept s t := by
  refine ⟨fun f file hf => ?_, fun n => by rw [h.inode], h.executable, h.fdTable, h.mmapList⟩
  have hkey := h.file f
  rw [hf, Option.map_some, Option.map_eq_some_iff] at hkey
  obtain ⟨file', hf', heq⟩ := hkey
  exact ⟨file', hf', congrArg Prod.fst heq⟩

theorem handlesKept_setFile {f : FileAddr} {file file' : File} (h : s.file f = some file)
    (hi : file'.inode = file.inode) (hd : file'.denyWrite = file.denyWrite) :
    HandlesKept s (setFile s f file') := by
  refine ⟨fun g => ?_, rfl, rfl, rfl, rfl, rfl⟩
  by_cases hgf : g = f
  · simp [setFile, hgf, h, hi, hd]
  · simp [setFile, hgf]

theorem PageEffect.path (h : PageEffect fl s L fl' t)
    (hf : HandlesKept s t) : PagePath (fl, s) L (fl', t) :=
  Base.Path.single ⟨h, hf⟩

theorem PagePath.trans {a b c : Flight × VmState} {L' : List Nat} (h : PagePath a L b)
    (h' : PagePath b L' c) : PagePath a (L' ++ L) c :=
  Base.Path.trans h h'

theorem PagePath.refl (a : Flight × VmState) : PagePath a [] a := Base.Path.refl

theorem PagePath.handlesKept {a b : Flight × VmState} (h : PagePath a L b) :
    HandlesKept a.2 b.2 :=
  Base.Path.relates (Q := fun a b => HandlesKept a.2 b.2) (fun _ => .refl _) .trans
    (fun h => h.2) h

theorem PagePath.filesKept {a b : Flight × VmState} (h : PagePath a L b) :
    FilesKept a.2 b.2 :=
  h.handlesKept.filesKept

theorem PagePath.consistent (h : PagePath (fl, s) L (fl', t))
    (hs : Consistent fl s) : Consistent fl' t :=
  h.effectPath.consistent hs

theorem Effect.path (h : Effect fl s L fl' t) :
    EffectPath (fl, s) L (fl', t) :=
  Base.Path.single h

theorem EffectPath.trans {a b c : Flight × VmState} {L' : List Nat} (h : EffectPath a L b)
    (h' : EffectPath b L' c) : EffectPath a (L' ++ L) c :=
  Base.Path.trans h h'

theorem EffectPath.refl (a : Flight × VmState) : EffectPath a [] a := Base.Path.refl

theorem SameMemory.path (h : SameMemory s t) (fl : Flight) : EffectPath (fl, s) [] (fl, t) :=
  (Effect.page (.quiet h)).path

/-! ## What page functions keep -/

/-- No entry, table or directory is lost, and an entry keeps what it was made with. -/
structure Extends (s t : VmState) : Prop where
  spt : ∀ p i, i ∈ s.spt p → i ∈ t.spt p
  spte : ∀ i e, s.spte i = some e → ∃ e', t.spte i = some e' ∧ e'.upage = e.upage ∧
    e'.writable = e.writable ∧ e'.file = e.file
  pagedir : ∀ p, (t.pagedir p).isSome = (s.pagedir p).isSome

theorem Extends.refl (s : VmState) : Extends s s :=
  ⟨fun _ _ h => h, fun _ e h => ⟨e, h, rfl, rfl, rfl⟩, fun _ => rfl⟩

theorem Extends.trans (h : Extends s t) (h' : Extends t u) : Extends s u := by
  refine ⟨fun p i hi => h'.spt p i (h.spt p i hi), fun i e he => ?_,
    fun p => (h'.pagedir p).trans (h.pagedir p)⟩
  obtain ⟨e', he', hu', hw', hf'⟩ := h.spte i e he
  obtain ⟨e'', he'', hu'', hw'', hf''⟩ := h'.spte i e' he'
  exact ⟨e'', he'', hu''.trans hu', hw''.trans hw', hf''.trans hf'⟩

private theorem Extends.congr (hm : SameMemory t u) (h : Extends s t) : Extends s u := by
  refine ⟨fun p i hi => ?_, fun i e he => ?_, fun p => ?_⟩
  · rw [hm.spt]
    exact h.spt p i hi
  · rw [hm.spte]
    exact h.spte i e he
  · rw [hm.pagedir]
    exact h.pagedir p

theorem SameMemory.extends (h : SameMemory s t) : Extends s t := (Extends.refl s).congr h

private theorem extends_update {e' : SptEntry} {pd' : PageDir}
    (he : s.spte i = some e) (hpd : s.pagedir p = some pd)
    (hspte : t.spte = Function.update s.spte i (some e'))
    (hpds : t.pagedir = Function.update s.pagedir p (some pd')) (hspt : t.spt = s.spt)
    (hu : e'.upage = e.upage) (hw : e'.writable = e.writable) (hf : e'.file = e.file) :
    Extends s t := by
  refine ⟨fun q j hj => hspt ▸ hj, fun j e'' hj => ?_, fun q => ?_⟩
  · rw [hspte]
    by_cases hji : j = i
    · subst hji
      cases he.symm.trans hj
      exact ⟨e', by simp, hu, hw, hf⟩
    · exact ⟨e'', by simp [hji, hj], rfl, rfl, rfl⟩
  · rw [hpds]
    by_cases hqp : q = p <;> simp [hqp, hpd]

private theorem extends_setPagedir {pd' : PageDir} (hpd : s.pagedir p = some pd)
    (hpds : t.pagedir = Function.update s.pagedir p (some pd')) (hspte : t.spte = s.spte)
    (hspt : t.spt = s.spt) : Extends s t := by
  refine ⟨fun q j hj => hspt ▸ hj, fun j e hj => ⟨e, hspte ▸ hj, rfl, rfl, rfl⟩, fun q => ?_⟩
  rw [hpds]
  by_cases hqp : q = p <;> simp [hqp, hpd]

private theorem extends_of_eq (hspte : t.spte = s.spte) (hspt : t.spt = s.spt)
    (hpds : t.pagedir = s.pagedir) : Extends s t :=
  ⟨fun _ _ h => hspt ▸ h, fun _ e h => ⟨e, hspte ▸ h, rfl, rfl, rfl⟩, fun _ => hpds ▸ rfl⟩

theorem PageEffect.extends (h : PageEffect fl s L fl' t) :
    Extends s t := by
  cases h with
  | quiet hm => exact hm.extends
  | touch hpd _ hm => exact Extends.congr hm (extends_setPagedir hpd rfl rfl rfl)
  | pin _ _ hm | palloc _ _ hm => exact Extends.congr hm (extends_of_eq rfl rfl rfl)
  | @insert _ _ _ p i e hi _ _ _ _ _ _ hm =>
    refine Extends.congr hm
      ⟨fun q j hj => ?_, fun j e' hj => ⟨e', ?_, rfl, rfl, rfl⟩, fun _ => rfl⟩
    · by_cases hqp : q = p
      · subst hqp
        simp [hj]
      · simp [hqp, hj]
    · have hji : j ≠ i := by grind
      simp [VmState.newSpte, hji, hj]
  | evictClean _ _ _ he _ hpd _ _ hm | evictKeep _ _ _ he _ hpd _ _ hm =>
    exact Extends.congr hm (extends_update he hpd rfl rfl rfl rfl rfl rfl)
  | evictAlloc _ _ _ he _ hpd _ _ _ _ hm =>
    exact Extends.congr hm (extends_update he hpd rfl rfl rfl rfl rfl rfl)
  | push _ hm | discard _ hm => exact Extends.congr hm (extends_of_eq rfl rfl rfl)
  | attach _ _ he hpd _ _ hm =>
    exact Extends.congr hm (extends_update he hpd rfl rfl rfl rfl rfl rfl)
  | attachFree _ _ he hpd _ _ _ hm =>
    exact Extends.congr hm (extends_update he hpd rfl rfl rfl rfl rfl rfl)

theorem PagePath.extends {a b : Flight × VmState} (h : PagePath a L b) :
    Extends a.2 b.2 :=
  Base.Path.relates (Q := fun a b => Extends a.2 b.2) (fun _ => .refl _) .trans
    (fun h => h.1.extends) h

/-! ## Tables of entries -/

theorem spte_of_mallocSpte (h : s.mallocSpte.1 = some i) : s.spte i = none := by
  simpa using (Option.filter_eq_some_iff.mp h).2

theorem frame_of_mallocFrame (h : s.mallocFrame.1 = some f) :
    s.frame f = none := by
  simpa using (Option.filter_eq_some_iff.mp h).2

theorem sptFind_some (h : sptFind s p upage = some i) :
    i ∈ s.spt p ∧ ∃ e, s.spte i = some e ∧ e.upage = upage := by
  refine ⟨List.mem_of_find?_eq_some h, ?_⟩
  simpa [Option.any_eq_true] using List.find?_some h

theorem sptFind_none (h : sptFind s p upage = none) :
    ∀ j ∈ s.spt p, ∀ e, s.spte j = some e → e.upage ≠ upage := by
  intro j hj e he
  have := List.find?_eq_none.mp h j hj
  simpa [he] using this

theorem Consistent.sptFind_eq (h : Consistent fl s)
    (hi : i ∈ s.spt p) (he : s.spte i = some e) : sptFind s p e.upage = some i := by
  cases hf : sptFind s p e.upage with
  | none => exact absurd rfl (sptFind_none hf i hi e he)
  | some j =>
    obtain ⟨hj, e', he', hup⟩ := sptFind_some hf
    rw [h.upage_inj p j i e' e hj hi he' he hup]

private theorem sptFind_newSpte (hi : i ∉ s.spt p)
    (upage : Addr) : sptFind (s.newSpte i e) p upage = sptFind s p upage := by
  refine List.find?_congr fun j hj => ?_
  have hji : j ≠ i := by
    rintro rfl
    exact hi hj
  simp [VmState.newSpte, hji]

theorem sptInsertPage_newSpte (hi : i ∉ s.spt p)
    (hn : sptFind s p e.upage = none) :
    sptInsertPage p i (s.newSpte i e) =
      (true, { s.newSpte i e with spt := Function.update s.spt p (i :: s.spt p) }) := by
  have hspte : (s.newSpte i e).spte i = some e := by simp [VmState.newSpte]
  simp only [sptInsertPage, hspte, sptFind_newSpte hi, hn]
  rfl

theorem sptInsertPage_newSpte_false {j : SpteAddr} (hi : i ∉ s.spt p)
    (hj : sptFind s p e.upage = some j) :
    sptInsertPage p i (s.newSpte i e) = (false, s.newSpte i e) := by
  have hspte : (s.newSpte i e).spte i = some e := by simp [VmState.newSpte]
  simp only [sptInsertPage, hspte, sptFind_newSpte hi, hj]
  rfl

private theorem Consistent.not_mem_spt (h : Consistent fl s) (hi : s.spte i = none)
    (p : Pid) : i ∉ s.spt p := by
  intro hmem
  obtain ⟨e, he, -⟩ := h.entry p i hmem
  cases hi.symm.trans he

theorem Consistent.sptInsertPage_eq (h : Consistent fl s) (hi : s.spte i = none) (hn : sptFind s p e.upage = none) :
    sptInsertPage p i (s.newSpte i e) =
      (true, { s.newSpte i e with spt := Function.update s.spt p (i :: s.spt p) }) :=
  sptInsertPage_newSpte (h.not_mem_spt hi p) hn

theorem Consistent.sptInsertPage_eq_false (h : Consistent fl s) (hi : s.spte i = none) (hn : sptFind s p e.upage ≠ none) :
    sptInsertPage p i (s.newSpte i e) = (false, s.newSpte i e) := by
  have hspte : (s.newSpte i e).spte i = some e := by simp [VmState.newSpte]
  simp only [sptInsertPage, hspte, sptFind_newSpte (h.not_mem_spt hi p),
    Option.isSome_iff_ne_none.mpr hn, if_true]

theorem Consistent.insert_path (h : Consistent fl s)
    (hi : s.spte i = none) (hp : (s.pagedir p).isSome) (hn : sptFind s p e.upage = none)
    (hu : pgOfs e.upage = 0 ∧ isUserVaddr e.upage = true) (hf : e.frame = none)
    (ht : e.type ≠ .swap ∧ e.swapSlot = 0) (hb : Backed s p e) :
    PagePath (fl, s) [] (fl, (sptInsertPage p i (s.newSpte i e)).2) := by
  rw [h.sptInsertPage_eq hi hn]
  exact (PageEffect.insert hi hp hu (sptFind_none hn) hf ht hb (.refl _)).path
    (.of_eq rfl rfl rfl rfl rfl rfl)

theorem takeHeap_path (fl : Flight) (s : VmState) : PagePath (fl, s) [] (fl, s.takeHeap.2) :=
  (PageEffect.quiet (sameMemory_takeHeap s)).path (.of_eq rfl rfl rfl rfl rfl rfl)

/-- An evictable page owns the slot. -/
def Displaces (s : VmState) (slot : Nat) : Prop :=
  ∃ v fr i, evictable s v = true ∧ s.frame v = some fr ∧ fr.spte = some i ∧
    slotOf s.swapLog i = some slot

/-- No frame has changed, and no entry has got a slot. -/
structure Calm (s t : VmState) : Prop where
  frame : t.frame = s.frame
  frameTable : t.frameTable = s.frameTable
  slot : ∀ i n, slotOf t.swapLog i = some n → slotOf s.swapLog i = some n

theorem Calm.refl (s : VmState) : Calm s s := ⟨rfl, rfl, fun _ _ h => h⟩

theorem Calm.trans (h : Calm s t) (h' : Calm t u) : Calm s u :=
  ⟨h'.frame.trans h.frame, h'.frameTable.trans h.frameTable,
    fun i n hn => h.slot i n (h'.slot i n hn)⟩

theorem SameMemory.calm (h : SameMemory s t) : Calm s t :=
  ⟨h.frame, h.frameTable, fun i n hn => by rwa [h.swapLog] at hn⟩

theorem Calm.displaces (h : Calm s t) {n : Nat} (hd : Displaces t n) : Displaces s n := by
  obtain ⟨v, fr, i, hev, hv, hi, hslot⟩ := hd
  refine ⟨v, fr, i, ?_, h.frame ▸ hv, hi, h.slot i n hslot⟩
  simpa [evictable, h.frame, h.frameTable] using hev

theorem calm_newSpte (s : VmState) (i : SpteAddr) (e : SptEntry) : Calm s (s.newSpte i e) := by
  refine ⟨rfl, rfl, fun j n hn => ?_⟩
  simp only [VmState.newSpte, slotOf] at hn
  split at hn
  · cases hn
  · exact hn

theorem calm_sptInsertPage (p : Pid) (i : SpteAddr) (s : VmState) :
    Calm s (sptInsertPage p i s).2 := by
  unfold sptInsertPage
  split
  · exact .refl s
  · split
    · exact .refl s
    · exact ⟨rfl, rfl, fun _ _ h => h⟩

private theorem Consistent.growStack_path (h : Consistent fl s)
    (hp : (s.pagedir p).isSome) (hn : sptFind s p upage = none) (ho : pgOfs upage = 0)
    (hu : isUserVaddr upage = true) (hg : growStack p upage s = (o, t)) :
    PagePath (fl, s) [] (fl, t) ∧ Calm s t ∧
      ∀ i, o = some i → i ∈ t.spt p ∧ t.spte i = some (stackSpte p upage) := by
  have hquiet := takeHeap_path fl s
  have h' := hquiet.consistent h
  unfold growStack at hg
  split at hg
  · cases hg
    exact ⟨hquiet, (sameMemory_takeHeap s).calm, fun i hi => by cases hi⟩
  · next i hi =>
    have hfresh : s.takeHeap.2.spte i = none := spte_of_mallocSpte (s := s) hi
    have hins := h'.insert_path (e := stackSpte p upage) hfresh hp hn ⟨ho, hu⟩ rfl
      ⟨by simp [stackSpte], rfl⟩ (.inl ⟨rfl, rfl⟩)
    have heq := h'.sptInsertPage_eq (e := stackSpte p upage) (p := p) hfresh hn
    cases hg
    refine ⟨hquiet.trans hins, ?_, fun j hj => ?_⟩
    · exact (sameMemory_takeHeap s).calm.trans
        ((calm_newSpte _ i _).trans (calm_sptInsertPage p i _))
    · cases hj
      rw [VmState.mallocSpte, heq]
      exact ⟨by simp, by simp [VmState.newSpte]⟩

/-! ## Frames -/

/-- The clock has looked at frames: accessed bits and the hand may have changed. -/
structure Scanned (s t : VmState) : Prop where
  spte : t.spte = s.spte
  frame : t.frame = s.frame
  frameTable : t.frameTable = s.frameTable
  spt : t.spt = s.spt
  swapLog : t.swapLog = s.swapLog
  swapBitmap : t.swapBitmap = s.swapBitmap
  swapDevice : t.swapDevice = s.swapDevice
  mem : t.mem = s.mem
  file : t.file = s.file
  inode : t.inode = s.inode
  dirty : ∀ p pd, t.pagedir p = some pd →
    ∃ pd', s.pagedir p = some pd' ∧ ∀ u, pagedirIsDirty pd u = pagedirIsDirty pd' u

private theorem scanned_clockHand (s : VmState) (hand : ClockHand) :
    Scanned s { s with clockHand := hand } :=
  ⟨rfl, rfl, rfl, rfl, rfl, rfl, rfl, rfl, rfl, rfl, fun _ pd h => ⟨pd, h, fun _ => rfl⟩⟩

private theorem scanned_setAccessed (hpd : s.pagedir p = some pd)
    (u : Addr) (b : Bool) : Scanned s (s.setPagedir p (pagedirSetAccessed pd u b)) := by
  refine ⟨rfl, rfl, rfl, rfl, rfl, rfl, rfl, rfl, rfl, rfl, fun q pd' h => ?_⟩
  by_cases hqp : q = p
  · subst hqp
    obtain rfl : pagedirSetAccessed pd u b = pd' := by simpa [VmState.setPagedir] using h
    exact ⟨pd, hpd, fun _ => pagedirIsDirty_setAccessed ..⟩
  · exact ⟨pd', by simpa [VmState.setPagedir, hqp] using h, fun _ => rfl⟩

private theorem Scanned.trans (h : Scanned s t) (h' : Scanned t u) : Scanned s u := by
  refine ⟨h'.spte.trans h.spte, h'.frame.trans h.frame, h'.frameTable.trans h.frameTable,
    h'.spt.trans h.spt, h'.swapLog.trans h.swapLog, h'.swapBitmap.trans h.swapBitmap,
    h'.swapDevice.trans h.swapDevice, h'.mem.trans h.mem, h'.file.trans h.file,
    h'.inode.trans h.inode, fun p pd hpd => ?_⟩
  obtain ⟨pd1, hpd1, hd1⟩ := h'.dirty p pd hpd
  obtain ⟨pd2, hpd2, hd2⟩ := h.dirty p pd1 hpd1
  exact ⟨pd2, hpd2, fun u => (hd1 u).trans (hd2 u)⟩

private theorem clockHand_path (fl : Flight) (s : VmState) (hand : ClockHand) :
    PagePath (fl, s) [] (fl, { s with clockHand := hand }) := by
  refine (PageEffect.quiet ?_).path (.of_eq rfl rfl rfl rfl rfl rfl)
  exact ⟨rfl, rfl, rfl, rfl, rfl, rfl, rfl, rfl, rfl, rfl⟩

private theorem setAccessed_path (fl : Flight)
    (hpd : s.pagedir p = some pd) (u : Addr) (b : Bool) :
    PagePath (fl, s) [] (fl, s.setPagedir p (pagedirSetAccessed pd u b)) := by
  refine (PageEffect.touch hpd ?_ (.refl _)).path (.of_eq rfl rfl rfl rfl rfl rfl)
  exact ⟨fun _ => pagedirGetPage_setAccessed .., fun _ => pagedirIsDirty_setAccessed ..,
    fun _ => mmuWritable_setAccessed .., rfl⟩

theorem ownerPagedir_some
    (h : ownerPagedir s e = some (p, pd)) : e.pagedir = some p ∧ s.pagedir p = some pd := by
  simp only [ownerPagedir, Option.bind_eq_bind, Option.bind_eq_some_iff, Option.some.injEq,
    Prod.mk.injEq] at h
  obtain ⟨q, hq, pd', hpd', rfl, rfl⟩ := h
  exact ⟨hq, hpd'⟩

/-- The clock loop only scans, and the frame it stops at can be evicted. -/
theorem clockSelect_path (fl : Flight) {fuel : Nat}
    (h : clockSelect fuel s = some (v, t)) :
    PagePath (fl, s) [] (fl, t) ∧ Scanned s t ∧ evictable s v = true := by
  induction fuel generalizing s with
  | zero => cases h
  | succ fuel ih =>
    rw [clockSelect] at h
    split at h
    · next w hw =>
      split at h
      · next hmem =>
        simp only [Option.bind_eq_bind, Option.bind_eq_some_iff] at h
        obtain ⟨victim, hvictim, h⟩ := h
        have hhand := clockHand_path fl s (listNext s.frameTable w)
        have hscan := scanned_clockHand s (listNext s.frameTable w)
        split at h
        · obtain ⟨hp, hs, he⟩ := ih h
          exact ⟨hhand.trans hp, hscan.trans hs, he⟩
        · next hpin =>
          split at h
          · obtain ⟨hp, hs, he⟩ := ih h
            exact ⟨hhand.trans hp, hscan.trans hs, he⟩
          · next i hi =>
            simp only [Option.bind_eq_some_iff] at h
            obtain ⟨e, he, ⟨p, pd⟩, howner, h⟩ := h
            obtain ⟨-, hpd⟩ := ownerPagedir_some howner
            dsimp only at h
            split at h
            · obtain ⟨hp, hs, hev⟩ := ih h
              exact ⟨(hhand.trans (setAccessed_path fl hpd e.upage false)).trans hp,
                (hscan.trans (scanned_setAccessed hpd e.upage false)).trans hs, hev⟩
            · cases h
              exact ⟨hhand, hscan, by simp_all [evictable]⟩
      · cases h
    · cases h

theorem selectVictim_path (fl : Flight)
    (h : selectVictim r s = some (v, t)) :
    PagePath (fl, s) [] (fl, t) ∧ Scanned s t ∧ evictable s v = true := by
  cases r with
  | clock => exact clockSelect_path fl h
  | victim w =>
    simp only [selectVictim] at h
    split at h
    · next hev =>
      cases h
      exact ⟨clockHand_path fl s _, scanned_clockHand s _, hev⟩
    · cases h

theorem evictUnmap_some (h : evictUnmap v s = some (ev, t)) :
    ∃ fr i e p pd, s.frame v = some fr ∧ fr.spte = some i ∧ s.spte i = some e ∧
      e.pagedir = some p ∧ s.pagedir p = some pd ∧
      ev = ⟨i, fr.kpage, pagedirIsDirty pd e.upage || e.type == .swap⟩ ∧
      t = s.unmapped v p pd e.upage i { e with frame := none } := by
  simp only [evictUnmap, Option.bind_eq_bind, Option.bind_eq_some_iff] at h
  obtain ⟨fr, hfr, i, hi, e, he, ⟨p, pd⟩, howner, h⟩ := h
  obtain ⟨hp, hpd⟩ := ownerPagedir_some howner
  cases h
  exact ⟨fr, i, e, p, pd, hfr, hi, he, hp, hpd, rfl, rfl⟩

theorem evictAssign_some (h : evictAssign ev s = some t) :
    ∃ e, s.spte ev.spte = some e ∧
      ((e.type = .swap ∧ e.swapSlot ≠ 0 ∧ t = s) ∨
        ((e.type ≠ .swap ∨ e.swapSlot = 0) ∧ ∃ n, n < s.swapBitmap.length ∧
          bitmapTest s.swapBitmap n = false ∧
          t = { s with
            swapBitmap := bitmapSet s.swapBitmap n true
            swapLog := .alloc ev.spte (n * SECTORS_PER_PAGE) :: s.swapLog
            spte := Function.update s.spte ev.spte
              (some { e with swapSlot := n * SECTORS_PER_PAGE, type := .swap }) })) := by
  simp only [evictAssign, Option.bind_eq_bind, Option.bind_eq_some_iff] at h
  obtain ⟨e, he, h⟩ := h
  refine ⟨e, he, ?_⟩
  split at h
  · next hcond =>
    rw [Option.bind_eq_some_iff] at h
    obtain ⟨⟨slot, s'⟩, halloc, h⟩ := h
    obtain ⟨n, rfl, hn, hb, rfl⟩ := swapAlloc_some halloc
    cases h
    exact .inr ⟨hcond, n, hn, hb, rfl⟩
  · next hcond =>
    cases h
    simp only [not_or, not_not] at hcond
    exact .inl ⟨hcond.1, hcond.2, rfl⟩

theorem evictWrite_some (h : evictWrite ev s = some t) :
    ∃ e, s.spte ev.spte = some e ∧ validSlot s e.swapSlot = true ∧
      t = { s with swapDevice := writeSectors s.swapDevice e.swapSlot (s.mem ev.kpage) } := by
  simp only [evictWrite, Option.bind_eq_bind, Option.bind_eq_some_iff, swapWrite] at h
  obtain ⟨e, he, h⟩ := h
  split at h
  · next hv =>
    cases h
    exact ⟨e, he, hv, rfl⟩
  · cases h

/-- The entry of a frame on the table, with all that ties the two. -/
theorem Consistent.frame_entry (h : Consistent fl s) (hfl : fl ≠ .frame v) (hv : s.frame v = some fr)
    (hi : fr.spte = some i) (he : s.spte i = some e) (hp : e.pagedir = some p) :
    i ∈ s.spt p ∧ e.frame = some v := by
  obtain ⟨q, j, e', hj, hq, he', hf⟩ := h.linked v fr hv hfl
  have hij : i = j := Option.some.inj (hi.symm.trans hj)
  subst hij
  cases he.symm.trans he'
  obtain ⟨hq', -⟩ := h.resident q i e v hq he hf
  cases hp.symm.trans hq'
  exact ⟨hq, hf⟩

/-- What finding a page for a new frame leaves alone: entries that are not resident, addresses
that are not frames, and the lists of entries. -/
structure Untouched (s t : VmState) : Prop where
  spte : ∀ i e, s.spte i = some e → e.frame = none → t.spte i = some e
  frame : ∀ f, s.frame f = none → t.frame f = none
  spt : t.spt = s.spt

/-- The three ways an unmapped victim's page leaves memory: it is not needed, it gets a new slot,
or it goes to the slot it has kept. -/
inductive Leaves (s : VmState) (v : FrameAddr) (fr : Frame) (i : SpteAddr) (p : Pid)
    (e : SptEntry) (pd : PageDir) : VmState → Prop where
  | clean (hd : pagedirIsDirty pd e.upage = false) (ht : e.type ≠ .swap) :
      Leaves s v fr i p e pd (s.unmapped v p pd e.upage i { e with frame := none })
  | alloc {n : Nat} (hd : e.type ≠ .swap → pagedirIsDirty pd e.upage = true)
      (ht : e.type ≠ .swap ∨ e.swapSlot = 0) (hn : n < s.swapBitmap.length)
      (hb : bitmapTest s.swapBitmap n = false) :
      Leaves s v fr i p e pd { s.unmapped v p pd e.upage i
          { e with frame := none, type := .swap, swapSlot := n * SECTORS_PER_PAGE } with
        swapBitmap := bitmapSet s.swapBitmap n true
        swapLog := .alloc i (n * SECTORS_PER_PAGE) :: s.swapLog
        swapDevice := writeSectors s.swapDevice (n * SECTORS_PER_PAGE) (s.mem fr.kpage) }
  | keep (ht : e.type = .swap) (hslot : e.swapSlot ≠ 0) :
      Leaves s v fr i p e pd { s.unmapped v p pd e.upage i { e with frame := none } with
        swapDevice := writeSectors s.swapDevice e.swapSlot (s.mem fr.kpage) }

theorem evict_leaves
    (hun : evictUnmap v s = some (ev, t))
    (hrest : (if ev.writeBack then
        (evictAssign ev t).bind fun s => (evictWrite ev s).bind fun s => some (ev.kpage, s)
      else some (ev.kpage, t)) = some (k, u)) :
    ∃ fr i e p pd, s.frame v = some fr ∧ fr.spte = some i ∧ s.spte i = some e ∧
      e.pagedir = some p ∧ s.pagedir p = some pd ∧ ev.spte = i ∧ ev.kpage = fr.kpage ∧
      k = fr.kpage ∧ Leaves s v fr i p e pd u := by
  obtain ⟨fr, i, e, p, pd, hv, hi, he, hp, hpd, rfl, rfl⟩ := evictUnmap_some hun
  refine ⟨fr, i, e, p, pd, hv, hi, he, hp, hpd, rfl, rfl, ?_⟩
  split at hrest
  · next hwb =>
    simp only [Option.bind_eq_some_iff] at hrest
    obtain ⟨s1, hassign, s2, hwrite, hk⟩ := hrest
    obtain ⟨e1, he1, hslot⟩ := evictAssign_some hassign
    obtain rfl : { e with frame := none } = e1 := by simpa [VmState.unmapped] using he1
    obtain ⟨e2, he2, hvalid, rfl⟩ := evictWrite_some hwrite
    cases hk
    refine ⟨rfl, ?_⟩
    rcases hslot with ⟨hty, hs0, rfl⟩ | ⟨hcond, n, hn, hb, rfl⟩
    · obtain rfl : { e with frame := none } = e2 := by simpa [VmState.unmapped] using he2
      exact .keep hty hs0
    · obtain rfl : { e with
          frame := none, type := .swap, swapSlot := n * SECTORS_PER_PAGE } = e2 := by
        simpa [VmState.unmapped] using he2
      have hleave : Leaves s v fr i p e pd _ :=
        .alloc (fun hne => by simpa [hne] using hwb) hcond hn hb
      simpa [VmState.unmapped] using hleave
  · next hwb =>
    cases hrest
    simp only [Bool.not_eq_true, Bool.or_eq_false_iff] at hwb
    exact ⟨rfl, .clean hwb.1 (by simpa using hwb.2)⟩

theorem Leaves.effect (h : Leaves s v fr i p e pd u) (hc : Consistent .idle s)
    (hev : evictable s v = true) (hv : s.frame v = some fr) (hi : fr.spte = some i)
    (he : s.spte i = some e) (hp : e.pagedir = some p) (hpd : s.pagedir p = some pd) :
    ∃ L, PageEffect .idle s L (.page fr.kpage) u ∧ HandlesKept s u ∧
      ∀ slot ∈ L, Displaces s slot := by
  obtain ⟨hip, hef⟩ := hc.frame_entry (by simp) hv hi he hp
  have hpin : fr.pinned = false := by
    simp only [evictable, hv, Option.any_some, Bool.and_eq_true] at hev
    simpa using hev.2.1
  cases h with
  | clean hd ht =>
    exact ⟨[], .evictClean hv hpin hip he hef hpd hd ht (.refl _), .of_eq rfl rfl rfl rfl rfl rfl,
      by simp⟩
  | alloc hd ht hn hb =>
    refine ⟨_, .evictAlloc hv hpin hip he hef hpd hd ht hn hb (.refl _),
      .of_eq rfl rfl rfl rfl rfl rfl, fun slot hslot => ?_⟩
    exact ⟨v, fr, i, hev, hv, hi, by simpa using hslot⟩
  | keep ht hslot =>
    exact ⟨[], .evictKeep hv hpin hip he hef hpd ht hslot (.refl _), .of_eq rfl rfl rfl rfl rfl rfl,
      by simp⟩

/-- A page leaving memory is that of a resident entry, so the others are not touched. -/
theorem Leaves.untouched (h : Leaves s v fr i p e pd u) (he : s.spte i = some e)
    (hef : e.frame = some v) : Untouched s u := by
  have hother : ∀ (e' : SptEntry) j e'', s.spte j = some e'' → e''.frame = none →
      Function.update s.spte i (some e') j = some e'' := by
    intro e' j e'' hj hn
    have hji : j ≠ i := by grind
    simp [hji, hj]
  have hframe : ∀ g, s.frame g = none → Function.update s.frame v none g = none := by
    intro g hg
    by_cases hgv : g = v <;> simp [hgv, hg]
  cases h with
  | clean | alloc | keep => exact ⟨hother _, hframe, rfl⟩

/-- An eviction is a path that ends with the victim's page in flight. -/
theorem Consistent.doEviction_path (h : Consistent .idle s)
    (hd : doEviction r s = some (k, t)) :
    ∃ L, PagePath (.idle, s) L (.page k, t) ∧ Untouched s t ∧ ∀ slot ∈ L, Displaces s slot := by
  simp only [doEviction, Option.bind_eq_bind, Option.bind_eq_some_iff] at hd
  obtain ⟨⟨v, s1⟩, hsel, ⟨ev, s2⟩, hun, hrest⟩ := hd
  obtain ⟨hpath, hscan, hev⟩ := selectVictim_path .idle hsel
  have hev1 : evictable s1 v = true := by
    simpa [evictable, hscan.frame, hscan.frameTable] using hev
  have h1 := hpath.consistent h
  obtain ⟨fr, i, e, p, pd, hv, hi, he, hp, hpd, -, -, rfl, hleave⟩ := evict_leaves hun hrest
  obtain ⟨L, heff, hfiles, hL⟩ := hleave.effect h1 hev1 hv hi he hp hpd
  have hkeep := hleave.untouched he (h1.frame_entry (by simp) hv hi he hp).2
  refine ⟨_, hpath.trans (heff.path hfiles), ?_, ?_⟩
  · exact ⟨hscan.spte ▸ hkeep.spte, hscan.frame ▸ hkeep.frame, hkeep.spt.trans hscan.spt⟩
  · intro slot hslot
    simpa [Displaces, evictable, hscan.frame, hscan.frameTable, hscan.swapLog] using
      hL slot (by simpa using hslot)

/-- The page of a new frame comes out of the pool or out of an eviction. -/
theorem Consistent.framePage_path (h : Consistent .idle s)
    (hd : framePage r s = some (k, t)) :
    ∃ L, PagePath (.idle, s) L (.page k, t) ∧ Untouched s t ∧ ∀ slot ∈ L, Displaces s slot := by
  cases r with
  | victim v => exact h.doEviction_path hd
  | clock =>
    simp only [framePage] at hd
    split at hd
    · next ks hget =>
      cases hd
      simp only [pallocGetUserPage] at hget
      split at hget
      · cases hget
      · next k pool hscan =>
        cases hget
        obtain ⟨hk, hb, rfl⟩ := bitmapScanAndFlip_one hscan
        exact ⟨[], (PageEffect.palloc hk hb (.refl _)).path (.of_eq rfl rfl rfl rfl rfl rfl),
          ⟨fun _ _ h _ => h, fun _ h => h, rfl⟩, by simp⟩
    · exact h.doEviction_path hd

/-- A new frame is a path that ends with the frame, zeroed, in flight. -/
theorem Consistent.frameAlloc_path (h : Consistent .idle s)
    (hd : frameAlloc r s = some (f, t)) :
    ∃ L k, PagePath (.idle, s) L (.frame f, t) ∧ t.frame f = some ⟨k, none, false⟩ ∧
      (t.mem k = fun _ => 0) ∧
      (∀ i e, s.spte i = some e → e.frame = none → t.spte i = some e) ∧
      ∀ slot ∈ L, Displaces s slot := by
  simp only [frameAlloc, Option.bind_eq_bind, Option.bind_eq_some_iff] at hd
  obtain ⟨f', hf', ⟨k, s1⟩, hpage, hd⟩ := hd
  have hquiet := takeHeap_path .idle s
  have hfresh := frame_of_mallocFrame hf'
  obtain ⟨L, hpath, hkeep, hL⟩ := (hquiet.consistent h).framePage_path hpage
  have hpush := PageEffect.push (k := k) (d := fun _ => 0) (hkeep.frame f' hfresh) (.refl _)
  cases hd
  exact ⟨_, k, (hquiet.trans hpath).trans (hpush.path (.of_eq rfl rfl rfl rfl rfl rfl)), by simp, by simp,
    hkeep.spte, fun slot hslot => hL slot (by simpa using hslot)⟩

theorem Consistent.spt_frameAlloc (h : Consistent .idle s)
    (hd : frameAlloc r s = some (f, t)) : t.spt = s.spt := by
  simp only [frameAlloc, Option.bind_eq_bind, Option.bind_eq_some_iff] at hd
  obtain ⟨f', -, ⟨k, s1⟩, hpage, hd⟩ := hd
  obtain ⟨-, -, hkeep, -⟩ := ((takeHeap_path .idle s).consistent h).framePage_path hpage
  cases hd
  exact hkeep.spt

theorem frameFree_some (h : frameFree f s = some t) :
    ∃ fr, s.frame f = some fr ∧ t = { s with
      frameTable := s.frameTable.erase f
      frame := Function.update s.frame f none }.poolFreed fr.kpage fun _ => 0xcc := by
  simp only [frameFree, Option.bind_eq_bind, Option.bind_eq_some_iff] at h
  obtain ⟨fr, hfr, h⟩ := h
  refine ⟨fr, hfr, ?_⟩
  split at h
  · simp only [pallocFreeUserPage] at h
    split at h
    · cases h
      rfl
    · cases h
  · cases h

/-! ## Loading -/

theorem fileSeek_quiet {f : FileAddr} {pos : Nat} (h : fileSeek f pos s = some t) :
    SameMemory s t ∧ HandlesKept s t ∧ ∃ file, s.file f = some file ∧
      t = setFile s f { file with pos := pos } := by
  simp only [fileSeek] at h
  split at h
  · rw [Option.map_eq_some_iff] at h
    obtain ⟨file, hfile, rfl⟩ := h
    exact ⟨⟨rfl, rfl, rfl, rfl, rfl, rfl, rfl, rfl, rfl, rfl⟩, handlesKept_setFile hfile rfl rfl, file,
      hfile, rfl⟩
  · cases h

/-- `file_read` moves the handle's position and returns the inode's bytes. -/
theorem fileRead_quiet {f : FileAddr} {size n : Nat} {bytes : Nat → UInt8}
    (h : fileRead f size s = some (n, bytes, t)) :
    SameMemory s t ∧ HandlesKept s t ∧ ∃ file, s.file f = some file ∧
      t.file f = some { file with pos := file.pos + n } ∧
      bytes = fun j => (t.inode file.inode).data (file.pos + j) := by
  simp only [fileRead] at h
  split at h
  · cases h
  · next file hfile =>
    simp only [fileReadAt, hfile, Option.map_some, Option.some.injEq, Prod.mk.injEq] at h
    obtain ⟨rfl, rfl, rfl⟩ := h
    have hheap : HandlesKept s s.takeHeap.2 := .of_eq rfl rfl rfl rfl rfl rfl
    refine ⟨⟨rfl, rfl, rfl, rfl, rfl, rfl, rfl, rfl, rfl, rfl⟩, hheap.trans ?_, file, hfile, ?_, rfl⟩
    · exact handlesKept_setFile (s := s.takeHeap.2) hfile rfl rfl
    · simp [setFile]

/-- Filling a page changes that page only, and a complete read fills it with its bytes. -/
theorem vmReadPage_some (h : vmReadPage e k s = some (ok, t))
    (hz : s.mem k = fun _ => 0) :
    ∃ s1 d, SameMemory s s1 ∧ HandlesKept s s1 ∧ t = s1.setMem k d ∧
      (ok = true → Source s1 e d ∧ Source s e d) := by
  unfold vmReadPage at h
  split at h
  · next hty =>
    cases h
    refine ⟨s, s.mem k, .refl s, .refl s, by simp [VmState.setMem], fun _ => ?_⟩
    rw [hz]
    exact ⟨.zero hty, .zero hty⟩
  · next hty =>
    simp only [Option.bind_eq_bind, Option.bind_eq_some_iff] at h
    obtain ⟨f, hf, s2, hseek, ⟨n, bytes, s3⟩, hread, h⟩ := h
    obtain ⟨hm, hk, file, hfile, rfl⟩ := fileSeek_quiet hseek
    simp only [fileReadAt, Option.map_eq_some_iff] at hread
    obtain ⟨file', hfile', hread⟩ := hread
    cases hread
    cases h
    refine ⟨_, _, hm.trans (sameMemory_takeHeap _), hk.trans (.of_eq rfl rfl rfl rfl rfl rfl), rfl, ?_⟩
    intro hok
    have hmem : ((setFile s f { file with pos := e.fileOffset }).takeHeap.2).mem k = fun _ => 0 := hz
    rw [hmem, eq_of_beq hok]
    obtain rfl : { file with pos := e.fileOffset } = file' := by simpa [setFile] using hfile'
    exact ⟨.file hty hf hfile', (Source.file hty hf hfile :)⟩
  · next hty =>
    simp only [Option.bind_eq_bind, Option.bind_eq_some_iff] at h
    obtain ⟨page, hread, h⟩ := h
    cases h
    simp only [swapRead] at hread
    split at hread
    · next hv =>
      cases hread
      exact ⟨s, _, .refl s, .refl s, rfl, fun _ => ⟨.swap hty hv, .swap hty hv⟩⟩
    · cases hread

private theorem discard_path {d : PageData} (hf : s.frame f = some fr)
    (h : frameFree f (s.setMem fr.kpage d) = some t) : PagePath (.frame f, s) [] (.idle, t) := by
  obtain ⟨fr', hfr', rfl⟩ := frameFree_some h
  cases hf.symm.trans hfr'
  refine (PageEffect.discard (d := fun _ => 0xcc) hf ?_).path (.of_eq rfl rfl rfl rfl rfl rfl)
  exact ⟨rfl, rfl, rfl, rfl, rfl, by simp [VmState.poolFreed, VmState.setMem], rfl, rfl, rfl, rfl⟩

/-- `attachFrame`, in full: the frame is given back, or mapped and linked. -/
theorem attachFrame_some
    (h : attachFrame p i f s = some (ok, t)) :
    ∃ e fr pd, s.spte i = some e ∧ s.frame f = some fr ∧ s.pagedir p = some pd ∧
      ((ok = false ∧ installPage s.takeHeap.1.isSome pd e.upage fr.kpage e.writable = none ∧
          frameFree f s.takeHeap.2 = some t) ∨
        (ok = true ∧ ∃ pd', installPage s.takeHeap.1.isSome pd e.upage fr.kpage e.writable =
          some pd' ∧ t = s.takeHeap.2.attached p pd' i e f fr (s.mem fr.kpage))) := by
  simp only [attachFrame, Option.bind_eq_bind, Option.bind_eq_some_iff] at h
  obtain ⟨e, he, fr, hfr, pd, hpd, h⟩ := h
  refine ⟨e, fr, pd, he, hfr, hpd, ?_⟩
  split at h
  · next hinst =>
    rw [Option.map_eq_some_iff] at h
    obtain ⟨t', hfree, h⟩ := h
    cases h
    exact .inl ⟨rfl, hinst, hfree⟩
  · next pd' hinst =>
    cases h
    exact .inr ⟨rfl, pd', hinst, by simp [VmState.attached, VmState.takeHeap]⟩

private theorem attach_path
    {d : PageData} (hf : s.frame f = some fr) (hi : i ∈ s.spt p)
    (he : s.spte i = some e) (hd : Source s e d)
    (h : attachFrame p i f (s.setMem fr.kpage d) = some (ok, t)) :
    PagePath (.frame f, s) [] (.idle, t) ∧
      (ok = true → t.spte i = some { e with frame := some f, pagedir := some p } ∧
        t.frame f = some { fr with spte := some i }) := by
  obtain ⟨e', fr', pd, he', hf', hpd, h⟩ := attachFrame_some h
  cases he.symm.trans he'
  cases hf.symm.trans hf'
  rcases h with ⟨rfl, -, hfree⟩ | ⟨rfl, pd', hinst, rfl⟩
  · have hquiet := takeHeap_path (.frame f) s
    exact ⟨hquiet.trans (discard_path (s := s.takeHeap.2) (d := d) hf hfree),
      fun h => by cases h⟩
  · refine ⟨(PageEffect.attach hf hi he hpd hinst hd ?_).path (.of_eq rfl rfl rfl rfl rfl rfl), fun _ => ?_⟩
    · exact ⟨rfl, rfl, rfl, rfl, rfl, by simp [VmState.attached, VmState.setMem, VmState.takeHeap],
        rfl, rfl, rfl, rfl⟩
    · exact ⟨by simp [VmState.attached], by simp [VmState.attached]⟩

private theorem setPinned_path (fl : Flight) (s : VmState) (f : FrameAddr) (b : Bool) :
    PagePath (fl, s) [] (fl, setPinned f b s) := by
  cases hf : s.frame f with
  | none =>
    have : setPinned f b s = s := by
      simp only [setPinned, hf, Option.map_none]
      rw [← hf, Function.update_eq_self]
    rw [this]
    exact .refl _
  | some fr =>
    refine (PageEffect.pin hf b ?_).path (.of_eq rfl rfl rfl rfl rfl rfl)
    exact ⟨rfl, by simp [setPinned, VmState.setFrame, hf], rfl, rfl, rfl, rfl, rfl, rfl, rfl, rfl⟩

/-- Loading an entry that is not resident is a path; a loaded page is resident, pinned as
asked. -/
theorem Consistent.vmLoadSpte_path (h : Consistent .idle s) {pin : Bool} (hi : i ∈ s.spt p) (he : s.spte i = some e)
    (hn : e.frame = none) (hl : vmLoadSpte p i pin r s = some (ok, t)) :
    ∃ L, PagePath (.idle, s) L (.idle, t) ∧ (∀ slot ∈ L, Displaces s slot) ∧
      (ok = true → ∃ f fr, t.spte i = some { e with frame := some f, pagedir := some p } ∧
        t.frame f = some fr ∧ fr.pinned = pin) := by
  simp only [vmLoadSpte, Option.bind_eq_bind, Option.bind_eq_some_iff] at hl
  obtain ⟨⟨f, s1⟩, halloc, fr, hfr, e1, he1, ⟨ok1, s2⟩, hread, hl⟩ := hl
  obtain ⟨L, k, hpath, hframe, hmem, hkeep, hL⟩ := h.frameAlloc_path halloc
  cases hfr.symm.trans hframe
  cases he1.symm.trans (hkeep i e he hn)
  have hi1 : i ∈ s1.spt p := hpath.extends.spt p i hi
  obtain ⟨s3, d, hsame, hfiles, rfl, hsource⟩ := vmReadPage_some hread hmem
  have hquiet : PagePath (.frame f, s1) [] (.frame f, s3) := (PageEffect.quiet hsame).path hfiles
  have hframe3 : s3.frame f = some ⟨k, none, false⟩ := hsame.frame ▸ hframe
  dsimp only at hl
  split at hl
  · next hok =>
    rw [Option.bind_eq_some_iff] at hl
    obtain ⟨⟨ok2, s4⟩, hattach, hl⟩ := hl
    obtain ⟨hatt, hpost⟩ := attach_path hframe3 (hsame.spt ▸ hi1) (hsame.spte ▸ he1)
      (hsource hok).1 hattach
    cases hl
    have hpin : PagePath (.idle, s4) [] (.idle, if ok2 && pin then setPinned f true s4 else s4) := by
      split
      · exact setPinned_path .idle s4 f true
      · exact .refl _
    refine ⟨_, ((hpath.trans hquiet).trans hatt).trans hpin, ?_, ?_⟩
    · intro slot hslot
      exact hL slot (by simpa using hslot)
    · rintro rfl
      obtain ⟨hspte, hfr'⟩ := hpost rfl
      cases pin with
      | false => exact ⟨f, _, hspte, hfr', rfl⟩
      | true => exact ⟨f, { kpage := k, spte := some i, pinned := true }, hspte,
          by simp [setPinned, hfr'], rfl⟩
  · rw [Option.map_eq_some_iff] at hl
    obtain ⟨t', hfree, hl⟩ := hl
    cases hl
    refine ⟨_, (hpath.trans hquiet).trans (discard_path hframe3 hfree), ?_, ?_⟩
    · intro slot hslot
      exact hL slot (by simpa using hslot)
    · intro hok
      cases hok

private theorem isUserVaddr_of_isStackPage (h : isStackPage upage = true) :
    isUserVaddr upage = true := by
  simp only [isStackPage, Bool.and_eq_true, decide_eq_true_eq] at h
  simpa [isUserVaddr] using h.2

/-- What the search for the entry of a page comes to: it is there, the stack grows, or there is
none. -/
inductive SpteSearch (p : Pid) (upage : Addr) (s : VmState) : Option SpteAddr → VmState → Prop
  | found {i : SpteAddr} (hi : sptLookup s p upage = some i) : SpteSearch p upage s (some i) s
  | grown {o : Option SpteAddr} {t : VmState} (hnone : sptLookup s p upage = none)
    (hstack : isStackPage upage = true) (hgrow : growStack p upage s = (o, t)) :
    SpteSearch p upage s o t
  | missing : SpteSearch p upage s none s

theorem vmFindSpte_search (hf : vmFindSpte p upage s = (o, t)) : SpteSearch p upage s o t := by
  unfold vmFindSpte at hf
  split at hf
  · next i hi =>
    cases hf
    exact .found hi
  · next hnone =>
    split at hf
    · next hstack =>
      split at hf
      · cases hf
        exact .missing
      · exact .grown hnone hstack hf
    · cases hf
      exact .missing

theorem faultFindSpte_search {esp : Addr} (hf : faultFindSpte p flt esp s = (o, t)) :
    SpteSearch p (pgRoundDown flt.addr) s o t := by
  unfold faultFindSpte at hf
  dsimp only at hf
  split at hf
  · next i hi =>
    cases hf
    exact .found hi
  · next hnone =>
    split at hf
    · next hstack =>
      rw [Bool.and_eq_true] at hstack
      exact .grown hnone hstack.1 hf
    · cases hf
      exact .missing

theorem Consistent.search_path (h : Consistent fl s) (hp : (s.pagedir p).isSome)
    (hf : SpteSearch p (pgRoundDown upage) s o t) :
    PagePath (fl, s) [] (fl, t) ∧ Calm s t ∧
      ∀ i, o = some i → i ∈ t.spt p ∧ ∃ e, t.spte i = some e ∧ e.upage = pgRoundDown upage ∧
        (t = s ∧ sptLookup s p upage = some i ∨ e.frame = none) := by
  cases hf with
  | found hi =>
    rw [sptLookup, pgRoundDown_pgRoundDown] at hi
    obtain ⟨hmem, e, he, hup⟩ := sptFind_some hi
    refine ⟨.refl _, .refl s, fun j hj => ?_⟩
    cases hj
    exact ⟨hmem, e, he, hup, .inl ⟨rfl, hi⟩⟩
  | grown hnone hstack hgrow =>
    rw [sptLookup, pgRoundDown_pgRoundDown] at hnone
    obtain ⟨hpath, hcalm, hpost⟩ := h.growStack_path hp hnone (pgOfs_pgRoundDown upage)
      (isUserVaddr_of_isStackPage hstack) hgrow
    refine ⟨hpath, hcalm, fun i hi => ?_⟩
    obtain ⟨hmem, he⟩ := hpost i hi
    exact ⟨hmem, _, he, rfl, .inr rfl⟩
  | missing => exact ⟨.refl _, .refl s, fun i hi => by cases hi⟩

theorem Consistent.vmLoadPage_path (h : Consistent .idle s)
    {pin : Bool} (hp : (s.pagedir p).isSome)
    (hl : vmLoadPage p upage pin r s = some (ok, t)) :
    ∃ L, PagePath (.idle, s) L (.idle, t) ∧ (∀ slot ∈ L, Displaces s slot) ∧
      (ok = true → ∃ i e f, i ∈ t.spt p ∧ t.spte i = some e ∧ e.upage = pgRoundDown upage ∧
        e.frame = some f) := by
  unfold vmLoadPage at hl
  split at hl
  · next s1 hfind =>
    cases hl
    obtain ⟨hpath, -⟩ := h.search_path hp (vmFindSpte_search hfind)
    exact ⟨[], hpath, by simp, fun h => by cases h⟩
  · next i s1 hfind =>
    obtain ⟨hpath, hcalm, hpost⟩ := h.search_path hp (vmFindSpte_search hfind)
    obtain ⟨hmem, e, he, hup, -⟩ := hpost i rfl
    simp only [he, Option.bind_eq_bind, Option.bind_some] at hl
    split at hl
    · next hres =>
      cases hl
      obtain ⟨f, hf⟩ := Option.isSome_iff_exists.mp hres
      exact ⟨[], hpath, by simp, fun _ => ⟨i, e, f, hmem, he, hup, hf⟩⟩
    · next hres =>
      obtain ⟨L, hload, hL, hloaded⟩ := (hpath.consistent h).vmLoadSpte_path hmem he
        (by simpa using hres) hl
      refine ⟨_, hpath.trans hload, fun slot hslot => hcalm.displaces (hL slot (by simpa using hslot)), ?_⟩
      intro hok
      obtain ⟨f, fr, hspte, -⟩ := hloaded hok
      exact ⟨i, _, f, hload.extends.spt p i hmem, hspte, hup, rfl⟩

/-! ## Page faults -/

/-- The fault handler fills a page that is not in swap as `vm_load_page` does. -/
theorem faultReadPage_some
    (h : faultReadPage i e k s = some (ok, t)) (hz : s.mem k = fun _ => 0) (ht : e.type ≠ .swap) :
    ∃ s1 d, SameMemory s s1 ∧ HandlesKept s s1 ∧ t = s1.setMem k d ∧
      (ok = true → Source s1 e d ∧ Source s e d) := by
  unfold faultReadPage at h
  split at h
  · next hty =>
    cases h
    refine ⟨s, s.mem k, .refl s, .refl s, by simp [VmState.setMem], fun _ => ?_⟩
    rw [hz]
    exact ⟨.zero hty, .zero hty⟩
  · next hty =>
    simp only [Option.bind_eq_bind, Option.bind_eq_some_iff] at h
    obtain ⟨f, hf, s2, hseek, ⟨n, bytes, s3⟩, hread, h⟩ := h
    obtain ⟨hm, hk, file, hfile, rfl⟩ := fileSeek_quiet hseek
    obtain ⟨hm', hk', file', hfile', hf3, rfl⟩ := fileRead_quiet hread
    obtain rfl : { file with pos := e.fileOffset } = file' := by simpa [setFile] using hfile'
    cases h
    refine ⟨_, _, hm.trans hm', hk.trans hk', rfl, fun hok => ?_⟩
    rw [(hm.trans hm').mem, hz, eq_of_beq hok]
    have hsrc := Source.file hty hf hfile
    rw [← (hk.trans hk').filesKept.data] at hsrc
    exact ⟨(Source.file hty hf hf3 :), hsrc⟩
  · next hty => exact absurd hty ht

/-- The fault handler reads a swapped page, frees its slot and forgets it. -/
theorem faultReadPage_swap
    (h : faultReadPage i e k s = some (ok, t)) (ht : e.type = .swap) :
    ok = true ∧ validSlot s e.swapSlot = true ∧
      t = ((s.setMem k (readSectors s.swapDevice e.swapSlot)).slotFreed e.swapSlot).setSpte i
        { e with swapSlot := 0 } := by
  unfold faultReadPage at h
  split at h
  · next hty => simp [ht] at hty
  · next hty => simp [ht] at hty
  · simp only [Option.bind_eq_bind, Option.bind_eq_some_iff] at h
    obtain ⟨page, hread, s1, hfree, h⟩ := h
    simp only [swapRead] at hread
    split at hread
    · next hv =>
      cases hread
      simp only [swapFree] at hfree
      split at hfree
      · cases hfree
        cases h
        exact ⟨rfl, hv, rfl⟩
      · cases hfree
    · cases hread

/-- Loading through the fault handler is a path. A page in swap is never resident then, and
it has a page table, so that its installation cannot fail after its slot was freed. -/
theorem Consistent.handlePageLoad_path (h : Consistent .idle s) (hi : i ∈ s.spt p) (he : s.spte i = some e)
    (hres : e.frame ≠ none → e.writable = false) (hl : handlePageLoad p i r s = some (ok, t)) :
    ∃ L, PagePath (.idle, s) L (.idle, t) ∧ ∀ slot ∈ L, Displaces s slot := by
  simp only [handlePageLoad, Option.bind_eq_bind, Option.bind_eq_some_iff] at hl
  obtain ⟨⟨f, s1⟩, halloc, fr, hfr, e1, he1, ⟨ok1, s2⟩, hread, hl⟩ := hl
  obtain ⟨L, k, hpath, hframe, hmem, hkeep, hL⟩ := h.frameAlloc_path halloc
  cases hfr.symm.trans hframe
  have h1 := hpath.consistent h
  have hi1 : i ∈ s1.spt p := hpath.extends.spt p i hi
  have hL' : ∀ slot ∈ [] ++ ([] ++ L), Displaces s slot := fun slot hslot =>
    hL slot (by simpa using hslot)
  by_cases hty : e1.type = .swap
  · obtain ⟨rfl, hvalid, rfl⟩ := faultReadPage_swap hread hty
    have hn : e1.frame = none := by
      obtain ⟨e', he', -, hw, -⟩ := hpath.extends.spte i e he
      cases he1.symm.trans he'
      have hw1 := (h1.swapped p i e1 hi1 he1 hty).1
      have hn : e.frame = none := by
        by_contra hne
        rw [hw, hres hne] at hw1
        cases hw1
      rw [Option.some.inj (he1.symm.trans (hkeep i e he hn)), hn]
    simp only [if_true] at hl
    obtain ⟨e2, fr2, pd, he2, hf2, hpd, hout⟩ := attachFrame_some hl
    obtain rfl : { e1 with swapSlot := 0 } = e2 := by simpa [VmState.setSpte] using he2
    cases hframe.symm.trans hf2
    have hget : pagedirGetPage pd e1.upage = none := by
      by_contra hne
      exact (h1.frame_ne_none_iff hi1 he1 hpd).mpr hne hn
    have htable := (h1.swapped p i e1 hi1 he1 hty).2 pd hpd
    rcases hout with ⟨-, hinst, -⟩ | ⟨rfl, pd', hinst, rfl⟩
    · exact absurd hinst (installPage_ne_none hget htable)
    · refine ⟨_, hpath.trans ((PageEffect.attachFree hframe hi1 he1 hpd hinst
        (.swap hty hvalid) hty ?_).path (.of_eq rfl rfl rfl rfl rfl rfl)), hL⟩
      exact ⟨by simp [VmState.attached, VmState.slotFreed, VmState.setSpte, VmState.setMem,
        VmState.takeHeap], rfl, rfl, rfl, rfl, by simp [VmState.attached, VmState.slotFreed,
        VmState.setSpte, VmState.setMem, VmState.takeHeap], rfl, rfl, rfl, rfl⟩
  · obtain ⟨s3, d, hsame, hfiles, rfl, hsource⟩ := faultReadPage_some hread hmem hty
    have hquiet : PagePath (.frame f, s1) [] (.frame f, s3) := (PageEffect.quiet hsame).path hfiles
    have hframe3 : s3.frame f = some ⟨k, none, false⟩ := hsame.frame ▸ hframe
    split at hl
    · next hok =>
      obtain ⟨hatt, -⟩ := attach_path hframe3 (hsame.spt ▸ hi1) (hsame.spte ▸ he1)
        (hsource hok).1 hl
      exact ⟨_, (hpath.trans hquiet).trans hatt, hL'⟩
    · rw [Option.map_eq_some_iff] at hl
      obtain ⟨t', hfree, hl⟩ := hl
      cases hl
      exact ⟨_, (hpath.trans hquiet).trans (discard_path hframe3 hfree), hL'⟩

private theorem Consistent.not_writable_of_fault (h : Consistent fl s) {write : Bool}
    (hpd : s.pagedir p = some pd)
    (hm : mmuFaults pd flt write = true) (hi : i ∈ s.spt p) (he : s.spte i = some e)
    (hup : e.upage = pgRoundDown flt.addr) (hr : e.frame ≠ none) : e.writable = false := by
  obtain ⟨f, hf⟩ := Option.ne_none_iff_exists'.mp hr
  obtain ⟨-, fr, pd', -, -, hpd', hget, hw⟩ := h.resident p i e f hi he hf
  cases hpd.symm.trans hpd'
  have hsame : pgRoundDown e.upage = pgRoundDown flt.addr := by
    rw [hup, pgRoundDown_pgRoundDown]
  rw [mmuWritable_of_same hsame] at hw
  rw [pagedirGetPage_of_same hsame] at hget
  simp only [mmuFaults, hget, Option.isNone_some, Bool.false_or, Bool.and_eq_true] at hm
  rw [← hw]
  simpa using hm.1.2

/-- A fault that does not panic looks for the entry and may then load its page. -/
theorem pageFault_cases {res : FaultResult} (hl : pageFault p flt r s = some (res, t)) :
    ∃ o s1, SpteSearch p (pgRoundDown flt.addr) s o s1 ∧ (t = s1 ∨ ∃ i ok, o = some i ∧
      (!flt.user && (sptLookup s p flt.addr).isSome && !flt.notPresent) = false ∧
      handlePageLoad p i r s1 = some (ok, t)) := by
  unfold pageFault at hl
  split at hl
  · cases hl
  · split at hl
    · next s1 hfind =>
      cases hl
      exact ⟨_, _, faultFindSpte_search hfind, .inl rfl⟩
    · next i s1 hfind =>
      refine ⟨_, _, faultFindSpte_search hfind, ?_⟩
      split at hl
      · cases hl
        exact .inl rfl
      · next hcond =>
        rw [Bool.not_eq_true] at hcond
        split at hl
        · cases hl
        · next hu =>
          cases hl
          exact .inr ⟨i, true, rfl, hcond, hu⟩
        · next hu =>
          simp only [kill] at hl
          split at hl
          · cases hl
            exact .inr ⟨i, false, rfl, hcond, hu⟩
          · cases hl

theorem Consistent.pageFault_path (h : Consistent .idle s) {write : Bool} {res : FaultResult}
    (hpd : s.pagedir p = some pd) (hm : mmuFaults pd flt write = true)
    (hl : pageFault p flt r s = some (res, t)) :
    ∃ L, PagePath (.idle, s) L (.idle, t) ∧ ∀ slot ∈ L, Displaces s slot := by
  obtain ⟨o, s1, hsearch, hcase⟩ := pageFault_cases hl
  obtain ⟨hpath, hcalm, hpost⟩ := h.search_path (by simp [hpd]) hsearch
  rcases hcase with rfl | ⟨i, ok, rfl, -, hload⟩
  · exact ⟨[], hpath, by simp⟩
  · obtain ⟨hmem, e, he, hup, hnew⟩ := hpost i rfl
    have hres : e.frame ≠ none → e.writable = false := by
      intro hr
      rcases hnew with ⟨rfl, -⟩ | hn
      · exact h.not_writable_of_fault hpd hm hmem he hup hr
      · exact absurd hn hr
    obtain ⟨L, hload, hL⟩ := (hpath.consistent h).handlePageLoad_path hmem he hres hload
    exact ⟨_, hpath.trans hload, fun slot hslot => hcalm.displaces (hL slot (by simpa using hslot))⟩

theorem vmUnpinRange_path (fl : Flight) (p : Pid) (addr size : Addr) (s : VmState) :
    PagePath (fl, s) [] (fl, vmUnpinRange p addr size s) := by
  unfold vmUnpinRange
  split
  · exact .refl _
  · induction pageRange addr size generalizing s with
    | nil => exact .refl _
    | cons upage pages ih =>
      have hone : PagePath (fl, s) [] (fl, vmUnpinPage p upage s) := by
        unfold vmUnpinPage
        split
        · next e _ =>
          cases e.frame with
          | none => exact .refl _
          | some f => exact setPinned_path fl s f false
        · exact .refl _
      exact hone.trans (ih _)

end Pintos.Vm

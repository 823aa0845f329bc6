import Mathlib.Tactic.SplitIfs
import Pintos.Vm.OpenFiles
import Pintos.Vm.Paths

/-!
# Starting a program as a path of effects

`load` for a new process: creating it, mapping the segments of its executable, setting up its
stack.
-/

namespace Pintos.Vm

open Pintos.Base Pintos.Threads Pintos.Userprog Pintos.Lib Pintos.Filesys

variable {ofs readBytes upage zeroBytes : Addr} {w : Bool} {f file : FileAddr} {n : InodeNo}
  {inode : Option InodeNo} {p : Pid} {r : Replacement}

variable {fl : Flight} {s t u : VmState}

/-! ## Loading a program -/

/-- Entries are added, and nothing else happens to the memory system. -/
structure Filling (s t : VmState) : Prop where
  path : PagePath (.idle, s) [] (.idle, t)
  calm : Calm s t

private theorem Filling.refl (s : VmState) : Filling s s := ⟨.refl _, .refl s⟩

private theorem Filling.trans (h : Filling s t) (h' : Filling t u) : Filling s u :=
  ⟨h.path.trans h'.path, h.calm.trans h'.calm⟩

private theorem filling_quiet (hm : SameMemory s t) (hk : HandlesKept s t) : Filling s t :=
  ⟨(PageEffect.quiet hm).path hk, hm.calm⟩

/-- The pages of a segment still to be mapped lie below `PHYS_BASE`. -/
private def SegmentFits (upage readBytes zeroBytes : Addr) : Prop :=
  pgOfs upage = 0 ∧ (readBytes.toNat + zeroBytes.toNat) % PGSIZE = 0 ∧
    upage.toNat + readBytes.toNat + zeroBytes.toNat ≤ 0xc0000000

private theorem pos_of_not_zero
    (hne : ¬(readBytes = 0 ∧ zeroBytes = 0)) : 0 < readBytes.toNat + zeroBytes.toNat := by
  by_contra hz
  exact hne ⟨BitVec.eq_of_toNat_eq (by simp; omega), BitVec.eq_of_toNat_eq (by simp; omega)⟩

private theorem SegmentFits.user
    (h : SegmentFits upage readBytes zeroBytes) (hne : ¬(readBytes = 0 ∧ zeroBytes = 0)) :
    isUserVaddr upage = true := by
  have hpos := pos_of_not_zero hne
  have hle := h.2.2
  rw [isUserVaddr_iff]
  omega

-- The next page: what is left to read and to zero shrinks by one page in total.
private theorem SegmentFits.next (h : SegmentFits upage readBytes zeroBytes)
    (hne : ¬(readBytes = 0 ∧ zeroBytes = 0)) :
    SegmentFits (upage + BitVec.ofNat 32 PGSIZE)
      (readBytes - BitVec.ofNat 32 (segmentSpte file ofs upage readBytes w).readBytes)
      (zeroBytes - BitVec.ofNat 32 (segmentSpte file ofs upage readBytes w).zeroBytes) := by
  obtain ⟨hofs, hmod, hle⟩ := h
  have hpos := pos_of_not_zero hne
  rw [pgOfs_eq_zero_iff] at hofs
  simp only [PGSIZE] at hmod
  have hup : (upage + BitVec.ofNat 32 PGSIZE).toNat = upage.toNat + 4096 := by
    simp only [PGSIZE, BitVec.toNat_add, BitVec.toNat_ofNat]
    omega
  suffices hsum : (readBytes - BitVec.ofNat 32
        (segmentSpte file ofs upage readBytes w).readBytes).toNat + (zeroBytes - BitVec.ofNat 32
        (segmentSpte file ofs upage readBytes w).zeroBytes).toNat + 4096 =
      readBytes.toNat + zeroBytes.toNat by
    refine ⟨?_, ?_, ?_⟩
    · rw [pgOfs_eq_zero_iff, hup]
      omega
    · simp only [PGSIZE]
      omega
    · rw [hup]
      omega
  by_cases hlt : readBytes.toNat < PGSIZE
  · simp only [segmentSpte, hlt, if_true, BitVec.toNat_sub, BitVec.toNat_ofNat]
    simp only [PGSIZE] at hlt ⊢
    omega
  · simp only [segmentSpte, hlt, if_false, BitVec.toNat_sub, BitVec.toNat_ofNat]
    simp only [PGSIZE] at hlt ⊢
    omega

private theorem segmentSpte_backed (hx : s.executable p = some file) :
    Backed s p (segmentSpte file ofs upage readBytes w) := by
  by_cases hpos : 0 < (segmentSpte file ofs upage readBytes w).readBytes
  · exact .inr ⟨file, if_pos hpos, rfl, hx⟩
  · exact .inl ⟨if_neg hpos, Nat.eq_zero_of_not_pos hpos⟩

private theorem segmentSpte_type :
    (segmentSpte file ofs upage readBytes w).type ≠ .swap := by
  simp only [segmentSpte]
  split_ifs <;> simp

private theorem loadSegmentLoop_path {fuel : Nat} (h : Consistent .idle s) (hp : (s.pagedir p).isSome)
    (hx : s.executable p = some file) (hfit : SegmentFits upage readBytes zeroBytes)
    (hl : loadSegmentLoop p file w fuel ofs upage readBytes zeroBytes s = some (true, t)) :
    Filling s t := by
  induction fuel generalizing s ofs upage readBytes zeroBytes with
  | zero => cases hl
  | succ fuel ih =>
    rw [loadSegmentLoop] at hl
    split at hl
    · cases hl
      exact .refl _
    · next hne =>
      dsimp only at hl
      split at hl
      · cases hl
      · next i hi =>
        have h1 := (takeHeap_path .idle s).consistent h
        have hfresh : s.takeHeap.2.spte i = none := spte_of_mallocSpte (s := s) hi
        by_cases hn : sptFind s p upage = none
        · have hins := h1.insert_path (e := segmentSpte file ofs upage readBytes w) hfresh hp hn
            ⟨hfit.1, hfit.user hne⟩ rfl ⟨segmentSpte_type, rfl⟩ (segmentSpte_backed hx)
          have heq := h1.sptInsertPage_eq (e := segmentSpte file ofs upage readBytes w) (p := p)
            hfresh hn
          have hstep : Filling s _ := (filling_quiet (sameMemory_takeHeap s)
            (.of_eq rfl rfl rfl rfl rfl rfl)).trans
            ⟨hins, (calm_newSpte _ i _).trans (calm_sptInsertPage p i _)⟩
          simp only [VmState.mallocSpte, heq] at hl hstep
          exact hstep.trans (ih (hstep.path.consistent h) hp hx (hfit.next hne) hl)
        · have heq := h1.sptInsertPage_eq_false (e := segmentSpte file ofs upage readBytes w)
            (p := p) hfresh hn
          simp only [VmState.mallocSpte, heq] at hl
          cases hl

/-- The numbers of a validated program header; none of the sums wraps. -/
structure SegmentBounds (phdr : Elf32Phdr) (length : Nat) : Prop where
  congruent : phdr.pOffset.toNat % 4096 = phdr.pVaddr.toNat % 4096
  offset_le : phdr.pOffset.toNat ≤ length
  filesz_le : phdr.pFilesz.toNat ≤ phdr.pMemsz.toNat
  memsz_pos : 0 < phdr.pMemsz.toNat
  end_lt : phdr.pVaddr.toNat + phdr.pMemsz.toNat < 0xc0000000
  not_first : 4096 ≤ phdr.pVaddr.toNat

theorem segmentBounds_of_validate {phdr : Elf32Phdr} {length : Nat}
    (h : validateSegment phdr length = true) : SegmentBounds phdr length := by
  simp only [validateSegment, Bool.and_eq_true, isUserVaddr_iff, Bool.not_eq_true',
    decide_eq_false_iff_not, decide_eq_true_eq, BitVec.lt_def, BitVec.toNat_add,
    BitVec.toNat_ofNat, PGSIZE, beq_iff_eq, bne_iff_ne] at h
  obtain ⟨⟨⟨⟨⟨⟨⟨hofs, hlength⟩, hfilesz⟩, hmemsz⟩, hva⟩, hend⟩, hwrap⟩, hfirst⟩ := h
  have hpos : phdr.pMemsz.toNat ≠ 0 := fun hz => hmemsz (BitVec.eq_of_toNat_eq hz)
  have hmemlt := phdr.pMemsz.isLt
  have hcongr := congrArg BitVec.toNat hofs
  rw [toNat_pgOfs, toNat_pgOfs] at hcongr
  constructor <;> omega

/-- What `load` reads of a segment, counted from the start of its first page. -/
def segmentReadBytes (phdr : Elf32Phdr) : Addr :=
  if 0 < phdr.pFilesz then pgOfs phdr.pVaddr + phdr.pFilesz else 0

/-- The pages of a segment. -/
def segmentPages (phdr : Elf32Phdr) : Nat :=
  (phdr.pVaddr.toNat % 4096 + phdr.pMemsz.toNat + 4095) / 4096

namespace SegmentBounds

variable {phdr : Elf32Phdr} {length : Nat}

theorem toNat_readBytes (h : SegmentBounds phdr length) :
    (segmentReadBytes phdr).toNat =
      if 0 < phdr.pFilesz.toNat then phdr.pVaddr.toNat % 4096 + phdr.pFilesz.toNat else 0 := by
  have hle := h.filesz_le
  have hend := h.end_lt
  have hiff : 0 < phdr.pFilesz ↔ 0 < phdr.pFilesz.toNat := Iff.rfl
  unfold segmentReadBytes
  by_cases hpos : 0 < phdr.pFilesz.toNat
  · rw [if_pos hpos, if_pos (hiff.mpr hpos), BitVec.toNat_add, toNat_pgOfs]
    omega
  · rw [if_neg hpos, if_neg fun hlt => hpos (hiff.mp hlt)]
    rfl

/-- What is read and what is zeroed fill the pages of the segment. -/
theorem total (h : SegmentBounds phdr length) :
    (segmentReadBytes phdr).toNat +
      (roundUp (pgOfs phdr.pVaddr + phdr.pMemsz) - segmentReadBytes phdr).toNat =
        segmentPages phdr * PGSIZE := by
  have hle := h.filesz_le
  have hend := h.end_lt
  have hsum : (pgOfs phdr.pVaddr + phdr.pMemsz).toNat =
      phdr.pVaddr.toNat % 4096 + phdr.pMemsz.toNat := by
    rw [BitVec.toNat_add, toNat_pgOfs]
    omega
  have hround : (roundUp (pgOfs phdr.pVaddr + phdr.pMemsz)).toNat = segmentPages phdr * 4096 := by
    rw [roundUp, toNat_pgRoundDown, BitVec.toNat_add, hsum, segmentPages]
    simp only [PGSIZE, BitVec.toNat_ofNat]
    omega
  have hread : (segmentReadBytes phdr).toNat ≤ segmentPages phdr * 4096 := by
    rw [h.toNat_readBytes, segmentPages]
    split <;> omega
  rw [BitVec.toNat_sub_of_le (BitVec.le_def.mpr (hround ▸ hread)), hround, PGSIZE]
  omega

theorem pages_le (h : SegmentBounds phdr length) :
    phdr.pVaddr.toNat / 4096 * 4096 + segmentPages phdr * 4096 ≤ 0xc0000000 := by
  have hend := h.end_lt
  unfold segmentPages
  omega

end SegmentBounds

private theorem segmentFits_of_validate {phdr : Elf32Phdr} {length : Nat}
    (h : validateSegment phdr length = true) :
    SegmentFits (pgRoundDown phdr.pVaddr) (segmentReadBytes phdr)
      (roundUp (pgOfs phdr.pVaddr + phdr.pMemsz) - segmentReadBytes phdr) := by
  have hbounds := segmentBounds_of_validate h
  have htotal := hbounds.total
  have hle := hbounds.pages_le
  refine ⟨pgOfs_pgRoundDown _, ?_, ?_⟩
  · rw [htotal]
    exact Nat.mul_mod_left _ _
  · rw [Nat.add_assoc, htotal, toNat_pgRoundDown]
    exact hle

private theorem loadSegment_path (h : Consistent .idle s) (hp : (s.pagedir p).isSome)
    (hx : s.executable p = some file) (hfit : SegmentFits upage readBytes zeroBytes)
    (hl : loadSegment p file ofs upage readBytes zeroBytes w s = some (true, t)) :
    Filling s t := by
  unfold loadSegment at hl
  split at hl
  · exact loadSegmentLoop_path h hp hx hfit hl
  · cases hl

private theorem loadPhdr_path {phdr : Elf32Phdr}
    (h : Consistent .idle s) (hp : (s.pagedir p).isSome) (hx : s.executable p = some file)
    (hl : loadPhdr p file phdr s = some (true, t)) : Filling s t := by
  simp only [loadPhdr, Option.bind_eq_bind, Option.bind_eq_some_iff] at hl
  obtain ⟨length, -, hl⟩ := hl
  split at hl
  · next hv => exact loadSegment_path h hp hx (segmentFits_of_validate hv) hl
  · cases hl

private theorem fileSeek_path {pos : Nat} (hs : fileSeek f pos s = some t) :
    Filling s t := by
  simp only [fileSeek] at hs
  split at hs
  · rw [Option.map_eq_some_iff] at hs
    obtain ⟨file, hfile, rfl⟩ := hs
    exact filling_quiet (sameMemory_setFile s f _) (handlesKept_setFile hfile rfl rfl)
  · cases hs

theorem loadPhdrs_path {left : Nat} {fileOfs : Addr}
    (h : Consistent .idle s) (hp : (s.pagedir p).isSome) (hx : s.executable p = some file)
    (hl : loadPhdrs p file left fileOfs s = some (true, t)) :
    Filling s t := by
  induction left generalizing s fileOfs with
  | zero =>
    cases hl
    exact .refl _
  | succ left ih =>
    simp only [loadPhdrs, Option.bind_eq_bind, Option.bind_eq_some_iff] at hl
    obtain ⟨length, -, hl⟩ := hl
    split at hl
    · cases hl
    · simp only [Option.bind_eq_some_iff] at hl
      obtain ⟨s1, hseek, ⟨n, bytes, s2⟩, hread, hl⟩ := hl
      have hread' : Filling s s2 := by
        obtain ⟨hm, hk, -⟩ := fileRead_quiet hread
        exact (fileSeek_path hseek).trans (filling_quiet hm hk)
      have hp2 : (s2.pagedir p).isSome := by rw [hread'.path.extends.pagedir]; exact hp
      have hx2 : s2.executable p = some file := by rw [hread'.path.filesKept.executable]; exact hx
      have h2 := hread'.path.consistent h
      dsimp only at hl
      split at hl
      · cases hl
      · simp only [Option.bind_eq_some_iff] at hl
        obtain ⟨⟨ok, s3⟩, hphdr, hl⟩ := hl
        dsimp only at hl
        split at hl
        · next hok =>
          have hone : Filling s2 s3 := by
            unfold loadPhdrByType at hphdr
            split at hphdr
            · rw [hok] at hphdr
              exact loadPhdr_path h2 hp2 hx2 hphdr
            · cases hphdr
              exact .refl _
          have hp3 : (s3.pagedir p).isSome := by rw [hone.path.extends.pagedir]; exact hp2
          have hx3 : s3.executable p = some file := by
            rw [hone.path.filesKept.executable]; exact hx2
          exact (hread'.trans hone).trans (ih (hone.path.consistent h2) hp3 hx3 hl)
        · cases hl

theorem sptInsertPage_true {i : SpteAddr} {e : SptEntry}
    (he : s.spte i = some e) (h : sptInsertPage p i s = (true, t)) :
    sptFind s p e.upage = none ∧ t = { s with spt := Function.update s.spt p (i :: s.spt p) } := by
  simp only [sptInsertPage, he] at h
  split at h
  · cases h
  · next hn =>
    cases h
    exact ⟨by simpa using hn, rfl⟩

-- `setup_stack` maps the frame before the entry exists; the effects are taken the other way
-- round, the entry first.
private theorem stack_path {i : SpteAddr} {f : FrameAddr} {k : KPage}
    {pd pd' : PageDir} {b : Bool} (hi : s.spte i = none) (hf : s.frame f = some ⟨k, none, false⟩) (hz : s.mem k = fun _ => 0)
    (hpd : s.pagedir p = some pd) (hinst : installPage b pd upage k true = some pd')
    (hofs : pgOfs upage = 0) (hu : isUserVaddr upage = true)
    (hins : sptInsertPage p i (((s.takeHeap.2.setPagedir p pd').mallocSpte.2.newSpte i
      { stackSpte p upage with frame := some f }).setFrame f ⟨k, some i, false⟩) = (true, t)) :
    PagePath (.frame f, s) [] (.idle, t) := by
  obtain ⟨hfind, rfl⟩ := sptInsertPage_true (by simp [VmState.setFrame, VmState.newSpte]; rfl) hins
  have hn : ∀ j ∈ s.spt p, ∀ e', s.spte j = some e' → e'.upage ≠ upage := by
    intro j hj e' he'
    have hji : j ≠ i := by rintro rfl; simp [hi] at he'
    refine sptFind_none hfind j hj e' ?_
    simpa [VmState.setFrame, VmState.newSpte, VmState.mallocSpte, VmState.setPagedir,
      VmState.takeHeap, hji] using he'
  have hinsert : PageEffect (.frame f) s [] (.frame f) _ := .insert (e := stackSpte p upage) hi
    (by rw [hpd]; rfl) ⟨hofs, hu⟩ hn rfl ⟨by simp [stackSpte], rfl⟩
    (.inl ⟨rfl, rfl⟩) (.refl _)
  have hentry : (s.newSpte i (stackSpte p upage)).spte i = some (stackSpte p upage) := by
    simp [VmState.newSpte]
  have hattach := PageEffect.attach
    (s := { s.newSpte i (stackSpte p upage) with spt := Function.update s.spt p (i :: s.spt p) })
    (t := { ((s.takeHeap.2.setPagedir p pd').mallocSpte.2.newSpte i
        { stackSpte p upage with frame := some f }).setFrame f ⟨k, some i, false⟩ with
      spt := Function.update s.spt p (i :: s.spt p) })
    hf (by simp) hentry hpd hinst (.zero rfl)
    ⟨by simp [VmState.attached, VmState.newSpte, VmState.setFrame, VmState.mallocSpte,
        VmState.setPagedir, VmState.takeHeap, stackSpte], rfl, rfl, rfl, rfl,
      by simp [VmState.attached, VmState.newSpte, VmState.setFrame, VmState.mallocSpte,
        VmState.setPagedir, VmState.takeHeap, ← hz], rfl, rfl, rfl, rfl⟩
  exact (hinsert.path (.of_eq rfl rfl rfl rfl rfl rfl)).trans (hattach.path (.of_eq rfl rfl rfl rfl rfl rfl))

private theorem setupStack_path (h : Consistent .idle s)
    (hl : setupStack p r s = some (true, t)) :
    ∃ L, PagePath (.idle, s) L (.idle, t) ∧ ∀ slot ∈ L, Displaces s slot := by
  simp only [setupStack, Option.bind_eq_bind, Option.bind_eq_some_iff] at hl
  obtain ⟨⟨f, s1⟩, halloc, fr, hfr, pd, hpd, hl⟩ := hl
  obtain ⟨L, k, hpath, hframe, hmem, -, hL⟩ := h.frameAlloc_path halloc
  cases hfr.symm.trans hframe
  dsimp only at hl
  split at hl
  · rw [Option.map_eq_some_iff] at hl
    obtain ⟨_, -, hl⟩ := hl
    cases hl
  · next pd' hinst =>
    split at hl
    · rw [Option.map_eq_some_iff] at hl
      obtain ⟨_, -, hl⟩ := hl
      cases hl
    · next i hi =>
      have hfresh : s1.spte i = none := spte_of_mallocSpte
        (s := s1.takeHeap.2.setPagedir p pd') hi
      split at hl
      · next s2 hins =>
        cases hl
        have hstack := stack_path hfresh hframe hmem hpd hinst rfl rfl hins
        exact ⟨L, hpath.trans hstack, hL⟩
      · rw [Option.map_eq_some_iff] at hl
        obtain ⟨_, -, hl⟩ := hl
        cases hl

private theorem loadFile_path
    (h : Consistent .idle s) (hp : (s.pagedir p).isSome) (hx : s.executable p = some file)
    (hl : loadFile p file r s = some (true, t)) :
    ∃ L, PagePath (.idle, s) L (.idle, t) ∧ ∀ slot ∈ L, Displaces s slot := by
  simp only [loadFile, Option.bind_eq_bind, Option.bind_eq_some_iff] at hl
  obtain ⟨⟨n, ehdr, s1⟩, hread, hl⟩ := hl
  obtain ⟨hm, hk, -⟩ := fileRead_quiet hread
  have hquiet := filling_quiet hm hk
  dsimp only at hl
  split at hl
  · rw [Option.bind_eq_some_iff] at hl
    obtain ⟨⟨ok, s2⟩, hphdrs, hl⟩ := hl
    dsimp only at hl
    split at hl
    · next hok =>
      rw [hok] at hphdrs
      have hfill := hquiet.trans (loadPhdrs_path (h.congr hm) (by rwa [hm.pagedir])
        (by rwa [hk.executable]) hphdrs)
      obtain ⟨L, hpath, hL⟩ := setupStack_path (hfill.path.consistent h) hl
      exact ⟨_, hfill.path.trans hpath, fun slot hslot =>
        hfill.calm.displaces (hL slot (by simpa using hslot))⟩
    · cases hl
  · cases hl

/-! ## Opening the executable -/

/-- `load` up to the first read of the file, `userprog/process.c:420–436`. -/
def openExecutable (p : Pid) (inode : Option InodeNo) (s : VmState) :
    Option (FileAddr × VmState) :=
  if s.takeHeap.1.isNone then none
  else
    match filesysOpen inode (s.takeHeap.2.setPagedir p pagedirCreate) with
    | (none, _) => none
    | (some file, s) => (fileDenyWrite file s).map fun s =>
      (file, { s with executable := Function.update s.executable p (some file) })

/-- What `load` has done for process `p` before it reads the file: the process has its page
directory and its executable, newly opened on inode `n` and denied to writers. -/
structure ExecutableOpened (p : Pid) (n : InodeNo) (file : FileAddr) (s t : VmState) : Prop where
  fresh : s.file file = none
  counts : (s.inode n).denyWriteCnt ≤ (s.inode n).openCnt
  state : ∃ heap, t = { s with
    pagedir := Function.update s.pagedir p (some pagedirCreate)
    executable := Function.update s.executable p (some file)
    file := Function.update s.file file (some ⟨n, 0, true⟩)
    inode := Function.update s.inode n { s.inode n with
      openCnt := (s.inode n).openCnt + 1, denyWriteCnt := (s.inode n).denyWriteCnt + 1 }
    heap := heap }

/-- The executable cannot be opened: nothing but a page directory may have been made. -/
def ExecutableMissing (p : Pid) (s t : VmState) : Prop :=
  t.file = s.file ∧ (OnlyFiles s t ∨ OnlyFiles (s.setPagedir p pagedirCreate) t)

private theorem filesysOpen_eq_some
    (h : filesysOpen inode s = (some f, t)) :
    ∃ n, inode = some n ∧ s.file f = none ∧ ∃ heap, t = { s with
      file := Function.update s.file f (some ⟨n, 0, false⟩)
      inode := Function.update s.inode n { s.inode n with openCnt := (s.inode n).openCnt + 1 }
      heap := heap } := by
  cases inode with
  | none => cases h
  | some n =>
    simp only [filesysOpen, fileOpen, Option.elim_some] at h
    split at h
    · next hn hf =>
      cases hn
      cases h
      have hfree := (Option.filter_eq_some_iff.mp hf).2
      refine ⟨n, rfl, ?_, _, rfl⟩
      simpa [inodeReopen, setInode] using hfree
    · cases h
    · cases h

private theorem fileDenyWrite_eq_some
    (hf : s.file f = some ⟨n, 0, false⟩) (h : fileDenyWrite f s = some t) :
    (s.inode n).denyWriteCnt + 1 ≤ (s.inode n).openCnt ∧ t = { s with
      file := Function.update s.file f (some ⟨n, 0, true⟩)
      inode := Function.update s.inode n
        { s.inode n with denyWriteCnt := (s.inode n).denyWriteCnt + 1 } } := by
  simp only [fileDenyWrite, hf, Bool.false_eq_true, if_false] at h
  split at h
  · next hle =>
    cases h
    exact ⟨hle, rfl⟩
  · cases h

theorem openExecutable_some
    (h : openExecutable p inode s = some (file, t)) :
    ∃ n, inode = some n ∧ ExecutableOpened p n file s t := by
  unfold openExecutable at h
  split at h
  · cases h
  · split at h
    · cases h
    · next file' s1 hopen =>
      obtain ⟨n, rfl, hfresh, heap, rfl⟩ := filesysOpen_eq_some hopen
      rw [Option.map_eq_some_iff] at h
      obtain ⟨s2, hdeny, h⟩ := h
      cases h
      obtain ⟨hcounts, hs2⟩ := fileDenyWrite_eq_some (Function.update_self ..) hdeny
      refine ⟨n, rfl, hfresh, ?_, heap, ?_⟩
      · simpa [VmState.setPagedir, VmState.takeHeap] using hcounts
      · rw [hs2]
        simp [VmState.setPagedir, VmState.takeHeap]

/-- `load` either gives up before it has opened the executable, or reads it. -/
theorem load_some {ok : Bool}
    (h : load p inode r s = some (ok, t)) :
    (ok = false ∧ ExecutableMissing p s t) ∨
      ∃ file u, openExecutable p inode s = some (file, u) ∧
        ((ok = true ∧ loadFile p file r u = some (true, t)) ∨
          ok = false ∧ ∃ u', loadFile p file r u = some (false, u') ∧
            fileClose file u' = some t) := by
  unfold load at h
  split at h
  · cases h
    exact .inl ⟨rfl, rfl, .inl rfl⟩
  · next hheap =>
    split at h
    · next s1 hopen =>
      cases h
      have hfile := file_filesysOpen inode (s.takeHeap.2.setPagedir p pagedirCreate)
      have honly := onlyFiles_filesysOpen inode (s.takeHeap.2.setPagedir p pagedirCreate)
      rw [hopen] at hfile honly
      refine .inl ⟨rfl, ?_, .inr (OnlyFiles.trans (by rfl) honly)⟩
      rcases hfile with hfile | hfile
      · exact hfile.2
      · obtain ⟨_, _, _, hsome, -⟩ := hfile
        cases hsome
    · next file s1 hopen =>
      simp only [Option.bind_eq_bind, Option.bind_eq_some_iff] at h
      obtain ⟨s2, hdeny, ⟨ok', s3⟩, hfile, h⟩ := h
      refine .inr ⟨file, { s2 with executable := Function.update s2.executable p (some file) },
        ?_, ?_⟩
      · simp only [openExecutable, if_neg hheap, hopen, hdeny, Option.map_some]
      · cases ok' with
        | true =>
          cases h
          exact .inl ⟨rfl, hfile⟩
        | false =>
          simp only [Option.map_eq_some_iff] at h
          obtain ⟨u, hclose, hu⟩ := h
          cases hu
          exact .inr ⟨rfl, s3, hfile, hclose⟩

/-! ## Starting a process -/

/-- What `load` has done for process `p` before it reads the file: the process has its page
directory and its executable, newly opened. -/
structure Started (p : Pid) (file : FileAddr) (s t : VmState) : Prop where
  memory : SameMemory { s with pagedir := Function.update s.pagedir p (some pagedirCreate) } t
  fresh : s.file file = none
  table : ∀ f, (t.file f).isSome = true ↔ (s.file f).isSome = true ∨ f = file
  handle : ∀ f file', s.file f = some file' → ∃ file'', t.file f = some file'' ∧
    file''.inode = file'.inode
  data : ∀ n, (t.inode n).data = (s.inode n).data
  executable : t.executable = Function.update s.executable p (some file)
  fdTable : t.fdTable = Function.update s.fdTable p fun _ => none
  mmapList : t.mmapList = Function.update s.mmapList p []
  nextMapid : t.nextMapid = Function.update s.nextMapid p 1
  counts : CountsOk s → CountsOk t

private theorem Started.calm (h : Started p file s t) : Calm s t :=
  ⟨h.memory.frame, h.memory.frameTable, fun _ _ hn => by rwa [h.memory.swapLog] at hn⟩

theorem data_setInode {inode : Inode} (h : inode.data = (s.inode n).data)
    (m : InodeNo) : ((setInode s n inode).inode m).data = (s.inode m).data := by
  by_cases hmn : m = n
  · subst hmn
    simp [setInode, h]
  · simp [setInode, hmn]

theorem ExecutableOpened.started
    (h : ExecutableOpened p n file (initProcess p s) t) (hspt : s.spt p = []) :
    Started p file s t := by
  have hfresh : s.file file = none := h.fresh
  obtain ⟨heap, rfl⟩ := h.state
  refine ⟨⟨rfl, rfl, rfl, ?_, rfl, rfl, rfl, rfl, rfl, rfl⟩, hfresh, fun f => ?_, fun f file' hf => ?_,
    fun m => ?_, rfl, rfl, rfl, rfl, fun hc => ?_⟩
  · exact Function.update_eq_self_iff.mpr hspt.symm
  · by_cases hf : f = file <;> simp [initProcess, hf]
  · have hne : f ≠ file := by
      rintro rfl
      cases hfresh.symm.trans hf
    exact ⟨file', by simpa [initProcess, hne] using hf, rfl⟩
  · by_cases hm : m = n
    · subst hm
      simp [initProcess]
    · simp [initProcess, hm]
  · exact hc.opened (b := true) hfresh rfl rfl

/-- Starting a process is its creation followed by a path of page effects. -/
theorem Consistent.execProcess_path (h : Consistent .idle s) (hx : execProcess p inode r s = some t) :
    s.pagedir p = none ∧ ∃ file u L, Started p file s u ∧ PagePath (.idle, u) L (.idle, t) ∧
      ∀ slot ∈ L, Displaces s slot := by
  unfold execProcess at hx
  split at hx
  · next hp =>
    rw [Option.isNone_iff_eq_none] at hp
    refine ⟨hp, ?_⟩
    split at hx
    · next hl =>
      cases hx
      rcases load_some hl with ⟨hok, -⟩ | ⟨file, u, hopen, ⟨-, hfile⟩ | ⟨hok, -⟩⟩
      · cases hok
      · obtain ⟨n, -, hopened⟩ := openExecutable_some hopen
        have hstart := hopened.started (h.spt_eq_nil hp)
        have hu := (Effect.create hp hstart.memory).consistent h
        have hpu : (u.pagedir p).isSome := by
          rw [hstart.memory.pagedir]
          simp
        have hxu : u.executable p = some file := by
          rw [hstart.executable]
          simp
        obtain ⟨L, hpath, hL⟩ := loadFile_path hu hpu hxu hfile
        exact ⟨file, u, L, hstart, hpath, fun slot hslot => hstart.calm.displaces (hL slot hslot)⟩
      · cases hok
    · cases hx
  · cases hx

end Pintos.Vm

import Pintos.Vm.LoadPaths
import Pintos.Vm.NewEntries
import Pintos.Lib.Bytes

/-!
# The pages of an executable

What `load` puts into the supplemental page table: one entry for each page of each segment, whose
bytes are those of the file up to `p_filesz` and zeros after. `validate_segment` does not look at
the end of the segment in the file.
Source `userprog/process.c:408–637`.
-/

namespace Pintos.Userprog

open Pintos.Base Pintos.Threads Pintos.Vm Pintos.Lib Pintos.Filesys

variable {s t u : VmState} {p : Pid} {file : FileAddr} {ofs upage readBytes zeroBytes : Addr}
  {w : Bool}

/-- Page `k` of a segment. -/
def segmentPage (file : FileAddr) (ofs upage readBytes : Addr) (w : Bool) (k : Nat) : SptEntry :=
  segmentSpte file (ofs + BitVec.ofNat 32 (k * PGSIZE)) (upage + BitVec.ofNat 32 (k * PGSIZE))
    (BitVec.ofNat 32 (readBytes.toNat - k * PGSIZE)) w

/-- A page of memory filled from the entry's place in the file. -/
def pageImage (data : Nat → UInt8) (e : SptEntry) : PageData :=
  copyBytes e.readBytes (fun j => data (e.fileOffset + j)) fun _ => 0

private theorem add_page (a : Addr) (k : Nat) :
    a + BitVec.ofNat 32 PGSIZE + BitVec.ofNat 32 (k * PGSIZE) =
      a + BitVec.ofNat 32 ((k + 1) * PGSIZE) := by
  rw [BitVec.add_assoc, ← BitVec.ofNat_add]
  congr 2
  rw [Nat.succ_mul, Nat.add_comm]

private theorem readBytes_segmentSpte :
    (segmentSpte file ofs upage readBytes w).readBytes = min readBytes.toNat PGSIZE := by
  simp only [segmentSpte]
  split_ifs <;> omega

private theorem zeroBytes_segmentSpte :
    (segmentSpte file ofs upage readBytes w).zeroBytes = PGSIZE - min readBytes.toNat PGSIZE := by
  rw [← @readBytes_segmentSpte file ofs upage readBytes w]
  rfl

private theorem toNat_readBytes_sub :
    (readBytes - BitVec.ofNat 32 (segmentSpte file ofs upage readBytes w).readBytes).toNat =
      readBytes.toNat - PGSIZE := by
  have hlt := readBytes.isLt
  rw [readBytes_segmentSpte, BitVec.toNat_sub, BitVec.toNat_ofNat]
  unfold PGSIZE
  omega

private theorem segmentPage_zero :
    segmentPage file ofs upage readBytes w 0 = segmentSpte file ofs upage readBytes w := by
  simp [segmentPage]

private theorem segmentPage_succ (k : Nat) :
    segmentPage file (ofs + BitVec.ofNat 32 PGSIZE) (upage + BitVec.ofNat 32 PGSIZE)
        (readBytes - BitVec.ofNat 32 (segmentSpte file ofs upage readBytes w).readBytes) w k =
      segmentPage file ofs upage readBytes w (k + 1) := by
  unfold segmentPage
  rw [add_page, add_page, toNat_readBytes_sub, Nat.sub_sub, Nat.succ_mul, Nat.add_comm PGSIZE]

private theorem toNat_left_add {n : Nat}
    (htotal : readBytes.toNat + zeroBytes.toNat = (n + 1) * PGSIZE) :
    (readBytes - BitVec.ofNat 32 (segmentSpte file ofs upage readBytes w).readBytes).toNat +
      (zeroBytes - BitVec.ofNat 32 (segmentSpte file ofs upage readBytes w).zeroBytes).toNat =
        n * PGSIZE := by
  have hlt := zeroBytes.isLt
  rw [toNat_readBytes_sub, zeroBytes_segmentSpte, BitVec.toNat_sub, BitVec.toNat_ofNat]
  unfold PGSIZE at htotal ⊢
  omega

/-- The loop returns, and if it has inserted every page the table has gained just those. -/
theorem loadSegmentLoop_spec {fuel n : Nat} (hlive : ∀ i ∈ s.spt p, (s.spte i).isSome)
    (htotal : readBytes.toNat + zeroBytes.toNat = n * PGSIZE) (hfuel : n < fuel) :
    ∃ ok t, loadSegmentLoop p file w fuel ofs upage readBytes zeroBytes s = some (ok, t) ∧
      OnlyEntries s t ∧ (ok = true → ∃ added, added.length = n ∧
        EntriesAdded p (segmentPage file ofs upage readBytes w) added s t) := by
  induction n generalizing s fuel ofs upage readBytes zeroBytes with
  | zero =>
    obtain ⟨fuel, rfl⟩ := Nat.exists_eq_add_one.mpr hfuel
    have hzero : readBytes = 0 ∧ zeroBytes = 0 := by
      constructor <;> apply BitVec.eq_of_toNat_eq <;> simp <;> omega
    rw [loadSegmentLoop, if_pos hzero]
    exact ⟨true, s, rfl, rfl, fun _ => ⟨[], rfl, .nil p _ s⟩⟩
  | succ n ih =>
    obtain ⟨fuel, rfl⟩ := Nat.exists_eq_add_one.mpr (Nat.zero_lt_of_lt hfuel)
    have hne : ¬(readBytes = 0 ∧ zeroBytes = 0) := by
      rintro ⟨rfl, rfl⟩
      simp [PGSIZE] at htotal
    rw [loadSegmentLoop, if_neg hne]
    dsimp only
    cases hmalloc : s.mallocSpte.1 with
    | none => exact ⟨false, _, rfl, rfl, fun h => by cases h⟩
    | some i =>
      have hfresh : s.spte i = none := spte_of_mallocSpte hmalloc
      have hnot : i ∉ s.takeHeap.2.spt p := by
        intro hmem
        have hsome := hlive i hmem
        rw [hfresh] at hsome
        cases hsome
      have hheap : s.mallocSpte.2 = s.takeHeap.2 := rfl
      cases hfind : sptFind s.takeHeap.2 p (segmentSpte file ofs upage readBytes w).upage with
      | some j =>
        simp only [hheap, sptInsertPage_newSpte_false hnot hfind]
        exact ⟨false, _, rfl, rfl, fun h => by cases h⟩
      | none =>
        have hpages : segmentPage file (ofs + BitVec.ofNat 32 PGSIZE)
            (upage + BitVec.ofNat 32 PGSIZE) (readBytes - BitVec.ofNat 32
              (segmentSpte file ofs upage readBytes w).readBytes) w =
            fun k => segmentPage file ofs upage readBytes w (k + 1) := funext segmentPage_succ
        have hcons := fun added t => @EntriesAdded.cons s.takeHeap.2 t p
          (segmentPage file ofs upage readBytes w) added i hfresh
        rw [segmentPage_zero, ← hpages] at hcons
        have hlive' := fun j => (hcons [] _ (.nil p _ _)).live hlive (i := j)
        obtain ⟨ok, t, heq, honly, hadded⟩ := ih hlive' (toNat_left_add htotal)
          (Nat.lt_of_succ_lt_succ hfuel)
        simp only [hheap, sptInsertPage_newSpte hnot hfind]
        refine ⟨ok, t, heq, OnlyEntries.trans (by rfl) honly, fun hok => ?_⟩
        obtain ⟨added, hlen, hadded⟩ := hadded hok
        exact ⟨i :: added, congrArg (· + 1) hlen, (hcons added t hadded).of_takeHeap⟩

/-! ## One program header -/

section header

variable {phdr : Elf32Phdr} {length k : Nat}

/-- Page `k` of the segment of a program header. -/
def phdrPage (file : FileAddr) (phdr : Elf32Phdr) (k : Nat) : SptEntry :=
  segmentPage file (pgRoundDown phdr.pOffset) (pgRoundDown phdr.pVaddr) (segmentReadBytes phdr)
    (phdr.pFlags &&& PF_W != 0) k

private theorem loadPhdr_spec (hlive : ∀ i ∈ s.spt p, (s.spte i).isSome)
    (hlen : fileLength file s = some length) (hv : validateSegment phdr length = true) :
    ∃ ok t, loadPhdr p file phdr s = some (ok, t) ∧ OnlyEntries s t ∧
      (ok = true → ∃ added, added.length = segmentPages phdr ∧
        EntriesAdded p (phdrPage file phdr) added s t) := by
  have hbounds := segmentBounds_of_validate hv
  have htotal := hbounds.total
  have hpages := hbounds.pages_le
  obtain ⟨ok, t, heq, honly, hadded⟩ := @loadSegmentLoop_spec s p file (pgRoundDown phdr.pOffset)
    (pgRoundDown phdr.pVaddr) _ _ (phdr.pFlags &&& PF_W != 0) (2 ^ 20 + 1) _ hlive htotal (by omega)
  refine ⟨ok, t, ?_, honly, hadded⟩
  have hassert : pgOfs (segmentReadBytes phdr + (roundUp (pgOfs phdr.pVaddr + phdr.pMemsz) -
      segmentReadBytes phdr)) = 0 := by
    rw [pgOfs_eq_zero_iff, BitVec.toNat_add, htotal, PGSIZE]
    omega
  simp only [loadPhdr, hlen, Option.bind_eq_bind, Option.bind_some, hv, if_true, loadSegment]
  rw [if_pos ⟨hassert, pgOfs_pgRoundDown _, pgOfs_pgRoundDown _⟩]
  exact heq

private theorem upage_phdrPage (h : SegmentBounds phdr length) (hk : k < segmentPages phdr) :
    (phdrPage file phdr k).upage.toNat = phdr.pVaddr.toNat / 4096 * 4096 + k * 4096 := by
  have hle := h.pages_le
  simp only [phdrPage, segmentPage, segmentSpte, BitVec.toNat_add, toNat_pgRoundDown,
    BitVec.toNat_ofNat, PGSIZE]
  omega

private theorem readBytes_phdrPage :
    (phdrPage file phdr k).readBytes = min ((segmentReadBytes phdr).toNat - k * 4096) 4096 := by
  have hlt := (segmentReadBytes phdr).isLt
  simp only [phdrPage, segmentPage, readBytes_segmentSpte, BitVec.toNat_ofNat, PGSIZE]
  omega

private theorem fileOffset_phdrPage :
    (phdrPage file phdr k).fileOffset =
      (phdr.pOffset.toNat / 4096 * 4096 + k * 4096) % 2 ^ 32 := by
  simp only [phdrPage, segmentPage, segmentSpte, BitVec.toNat_add, toNat_pgRoundDown,
    BitVec.toNat_ofNat, PGSIZE]
  omega

/-- The table has gained one entry for each page of the segment, with the file's bytes at the
addresses of the segment's file part and zeros behind it. -/
structure SegmentMapped (p : Pid) (phdr : Elf32Phdr) (data : Nat → UInt8)
    (entry : Nat → SptEntry) (added : List SpteAddr) (s t : VmState) : Prop where
  gained : EntriesAdded p entry added s t
  pages : phdr.pVaddr.toNat / PGSIZE * PGSIZE + added.length * PGSIZE =
    (phdr.pVaddr.toNat + phdr.pMemsz.toNat + (PGSIZE - 1)) / PGSIZE * PGSIZE
  upage : ∀ k < added.length,
    (entry k).upage.toNat = phdr.pVaddr.toNat / PGSIZE * PGSIZE + k * PGSIZE
  user : ∀ k < added.length, isUserVaddr (entry k).upage = true ∧ PGSIZE ≤ (entry k).upage.toNat
  file : ∀ k < added.length, ∀ j (hj : j < PGSIZE),
    phdr.pVaddr.toNat ≤ (entry k).upage.toNat + j →
    (entry k).upage.toNat + j < phdr.pVaddr.toNat + phdr.pFilesz.toNat →
      pageImage data (entry k) ⟨j, hj⟩ =
        data (phdr.pOffset.toNat + ((entry k).upage.toNat + j - phdr.pVaddr.toNat))
  zero : ∀ k < added.length, ∀ j (hj : j < PGSIZE),
    phdr.pVaddr.toNat + phdr.pFilesz.toNat ≤ (entry k).upage.toNat + j →
      pageImage data (entry k) ⟨j, hj⟩ = 0

private theorem pageImage_of_lt (h : SegmentBounds phdr length)
    (hend : phdr.pOffset.toNat + phdr.pFilesz.toNat ≤ length) (hmax : length < 2 ^ 31)
    (data : Nat → UInt8) {j : Nat} (hj : j < PGSIZE) (hpos : 0 < phdr.pFilesz.toNat)
    (hlt : k * 4096 + j < phdr.pVaddr.toNat % 4096 + phdr.pFilesz.toNat) :
    pageImage data (phdrPage file phdr k) ⟨j, hj⟩ =
      data (phdr.pOffset.toNat / 4096 * 4096 + k * 4096 + j) := by
  have hpage : j < 4096 := hj
  have hcongr := h.congruent
  simp only [pageImage, copyBytes, readBytes_phdrPage, fileOffset_phdrPage, h.toNat_readBytes,
    if_pos hpos]
  rw [if_pos (by omega)]
  congr 1
  omega

private theorem pageImage_of_ge (h : SegmentBounds phdr length) (data : Nat → UInt8) {j : Nat}
    (hj : j < PGSIZE)
    (hge : phdr.pVaddr.toNat % 4096 + phdr.pFilesz.toNat ≤ k * 4096 + j ∨
      phdr.pFilesz.toNat = 0) :
    pageImage data (phdrPage file phdr k) ⟨j, hj⟩ = 0 := by
  simp only [pageImage, copyBytes, readBytes_phdrPage, h.toNat_readBytes]
  rw [if_neg]
  split <;> omega

-- Positions in the segment and in the file, counted from the starts of their pages.
private theorem lt_of_page {q r v a n : Nat} (hv : q + r = v) (h : q + a < v + n) :
    a < r + n := by omega

private theorem file_position {q o r v f a : Nat} (hv : q + r = v) (hf : o + r = f)
    (h : v ≤ q + a) : o + a = f + (q + a - v) := by omega

/-- `load_segment` maps a validated program header, contained in the file, exactly. -/
theorem segment_mapping_exact (data : Nat → UInt8)
    (hlive : ∀ i ∈ s.spt p, (s.spte i).isSome) (hlen : fileLength file s = some length)
    (hmax : length < 2 ^ 31) (hv : validateSegment phdr length = true)
    (hend : phdr.pOffset.toNat + phdr.pFilesz.toNat ≤ length) :
    ∃ ok t, loadPhdr p file phdr s = some (ok, t) ∧
      (ok = true → ∃ entry added, SegmentMapped p phdr data entry added s t) := by
  have hbounds := segmentBounds_of_validate hv
  have hcongr := hbounds.congruent
  have hend' := hbounds.end_lt
  have hfirst := hbounds.not_first
  obtain ⟨ok, t, heq, -, hadded⟩ := loadPhdr_spec hlive hlen hv
  refine ⟨ok, t, heq, fun hok => ?_⟩
  obtain ⟨added, hcount, hadded⟩ := hadded hok
  have hupage : ∀ k < added.length, (phdrPage file phdr k).upage.toNat =
      phdr.pVaddr.toNat / 4096 * 4096 + k * 4096 := by
    intro k hk
    rw [hcount] at hk
    exact upage_phdrPage hbounds hk
  refine ⟨phdrPage file phdr, added, hadded, ?_, hupage, fun k hk => ?_, fun k hk j hj hlo hhi => ?_,
    fun k hk j hj hlo => ?_⟩
  · rw [hcount]
    unfold segmentPages PGSIZE
    omega
  · have hle := hbounds.pages_le
    rw [isUserVaddr_iff, hupage k hk]
    rw [hcount] at hk
    unfold PGSIZE
    omega
  · rw [hupage k hk] at hlo hhi ⊢
    rw [Nat.add_assoc] at hlo hhi ⊢
    have hva := Nat.div_add_mod' phdr.pVaddr.toNat 4096
    have hof := Nat.div_add_mod' phdr.pOffset.toNat 4096
    rw [hcongr] at hof
    rw [pageImage_of_lt hbounds hend hmax data hj (by omega) (lt_of_page hva hhi), Nat.add_assoc,
      file_position hva hof hlo]
  · rw [hupage k hk] at hlo
    exact pageImage_of_ge hbounds data hj (by omega)

/-- An executable of 84 bytes with one segment for page `0x08048000`, read from offset 0, whose
`p_filesz` has the given low and high byte. -/
def oneSegment (lo hi : UInt8) : Inode where
  length := 84
  data := fun j => ([0x7f, 0x45, 0x4c, 0x46, 1, 1, 1, 0, 0, 0, 0, 0, 0, 0, 0, 0, 2, 0, 3, 0, 1, 0, 0,
    0, 0, 0, 0, 0, 52, 0, 0, 0, 0, 0, 0, 0, 0, 0, 0, 0, 52, 0, 32, 0, 1, 0, 0, 0, 0, 0, 0, 0,
    1, 0, 0, 0, 0, 0, 0, 0, 0, 0x80, 4, 8, 0, 0, 0, 0, lo, hi, 0, 0, 0, 0x10] : List UInt8).getD j 0
  openCnt := 0
  denyWriteCnt := 0

/-- A machine whose files are all this executable. -/
def oneSegmentMachine (lo hi : UInt8) : VmState :=
  VmState.init 2 4 (fun _ _ => 0) (fun _ _ => 0) (fun _ => oneSegment lo hi) fun n => some (n + 10)

/-- The same machine with handle 9 open. -/
def oneSegmentOpened (lo hi : UInt8) : VmState :=
  { oneSegmentMachine lo hi with file := fun f => if f = 9 then some ⟨0, 0, true⟩ else none }

/-- A segment of 84 bytes in a page. -/
theorem segment_mapping_exact_one_page :
    ∃ t entry added, loadPhdr 0 9 (readPhdr fun j => (oneSegment 84 0).data (52 + j))
        (oneSegmentOpened 84 0) = some (true, t) ∧
      SegmentMapped 0 (readPhdr fun j => (oneSegment 84 0).data (52 + j)) (oneSegment 84 0).data
        entry added (oneSegmentOpened 84 0) t := by
  obtain ⟨ok, t, heq, hmapped⟩ := @segment_mapping_exact (oneSegmentOpened 84 0) 0 9
    (readPhdr fun j => (oneSegment 84 0).data (52 + j)) 84 (oneSegment 84 0).data (by
      intro i hi
      cases hi) rfl (by decide) (by decide) (by decide)
  have hok : (loadPhdr 0 9 (readPhdr fun j => (oneSegment 84 0).data (52 + j))
      (oneSegmentOpened 84 0)).any Prod.fst = true := by decide +kernel
  rw [heq] at hok
  obtain rfl : ok = true := hok
  obtain ⟨entry, added, hmapped⟩ := hmapped rfl
  exact ⟨t, entry, added, heq, hmapped⟩

end header

/-! ## All program headers -/

/-- The table of `p` has an entry with these fields. -/
def HasSpte (p : Pid) (e : SptEntry) (s : VmState) : Prop := ∃ i ∈ s.spt p, s.spte i = some e

/-- Program header `k` of a file whose headers start at `fileOfs`. -/
def filePhdr (data : Nat → UInt8) (fileOfs : Addr) (k : Nat) : Elf32Phdr :=
  readPhdr fun j => data ((fileOfs + BitVec.ofNat 32 (k * PHDR_SIZE)).toNat + j)

/-- The entry is a page of one of the segments. -/
def SegmentEntry (data : Nat → UInt8) (file : FileAddr) (fileOfs : Addr) (count : Nat)
    (e : SptEntry) : Prop :=
  ∃ k < count, (filePhdr data fileOfs k).pType = PT_LOAD ∧
    ∃ j < segmentPages (filePhdr data fileOfs k), e = phdrPage file (filePhdr data fileOfs k) j

private theorem filePhdr_succ (data : Nat → UInt8) (fileOfs : Addr) (k : Nat) :
    filePhdr data (fileOfs + BitVec.ofNat 32 PHDR_SIZE) k = filePhdr data fileOfs (k + 1) := by
  unfold filePhdr
  rw [BitVec.add_assoc, ← BitVec.ofNat_add, Nat.succ_mul, Nat.add_comm PHDR_SIZE]

private theorem segmentEntry_succ {data : Nat → UInt8} {fileOfs : Addr} {count : Nat}
    {e : SptEntry} :
    SegmentEntry data file fileOfs (count + 1) e ↔
      ((filePhdr data fileOfs 0).pType = PT_LOAD ∧ ∃ j < segmentPages (filePhdr data fileOfs 0),
        e = phdrPage file (filePhdr data fileOfs 0) j) ∨
      SegmentEntry data file (fileOfs + BitVec.ofNat 32 PHDR_SIZE) count e := by
  unfold SegmentEntry
  simp only [filePhdr_succ]
  constructor
  · rintro ⟨k, hk, h⟩
    cases k with
    | zero => exact .inl h
    | succ k => exact .inr ⟨k, Nat.lt_of_succ_lt_succ hk, h⟩
  · rintro (h | ⟨k, hk, h⟩)
    · exact ⟨0, Nat.zero_lt_succ count, h⟩
    · exact ⟨k + 1, Nat.succ_lt_succ hk, h⟩

private theorem hasSpte_of_added {entry : Nat → SptEntry} {added : List SpteAddr}
    (h : EntriesAdded p entry added s t) (hlive : ∀ i ∈ s.spt p, (s.spte i).isSome)
    {e : SptEntry} :
    HasSpte p e t ↔ HasSpte p e s ∨ ∃ j < added.length, e = entry j := by
  constructor
  · rintro ⟨i, hi, he⟩
    rcases h.cases_entry hlive hi he with ⟨j, hj, rfl⟩ | ⟨-, hold, hes⟩
    · exact .inr ⟨j, (List.getElem?_eq_some_iff.mp hj).1, rfl⟩
    · exact .inl ⟨i, hold, hes⟩
  · rintro (⟨i, hi, he⟩ | ⟨j, hj, rfl⟩)
    · refine ⟨i, h.mem_spt.mpr (.inr hi), ?_⟩
      rw [h.other i, he]
      intro hmem
      cases (h.fresh i hmem).symm.trans he
    · refine ⟨added[j], h.mem_spt.mpr (.inl (List.getElem_mem hj)), ?_⟩
      exact h.entry j _ (List.getElem?_eq_getElem hj)

private theorem loadPhdrByType_spec {n : InodeNo} {phdr : Elf32Phdr}
    (hlive : ∀ i ∈ s.spt p, (s.spte i).isSome) (hfile : (s.file file).map (·.inode) = some n)
    (h : loadPhdrByType p file phdr s = some (true, t)) :
    OnlyEntries s t ∧ (∀ i ∈ t.spt p, (t.spte i).isSome) ∧
      (phdr.pType = PT_LOAD → SegmentBounds phdr (s.inode n).length) ∧
      ∀ e, HasSpte p e t ↔ HasSpte p e s ∨
        phdr.pType = PT_LOAD ∧ ∃ j < segmentPages phdr, e = phdrPage file phdr j := by
  have hlen : fileLength file s = some (s.inode n).length := by
    obtain ⟨handle, hhandle, rfl⟩ := Option.map_eq_some_iff.mp hfile
    simp only [fileLength, hhandle, Option.map_some]
  unfold loadPhdrByType at h
  split at h
  · next htype =>
    have hv : validateSegment phdr (s.inode n).length = true := by
      by_contra hv
      simp [loadPhdr, hlen, hv] at h
    obtain ⟨ok, t', heq, honly, hadded⟩ := @loadPhdr_spec s p file phdr _ hlive hlen hv
    rw [h] at heq
    cases heq
    obtain ⟨added, hcount, hadded⟩ := hadded rfl
    refine ⟨honly, fun i => hadded.live hlive, fun _ => segmentBounds_of_validate hv, fun e => ?_⟩
    rw [hasSpte_of_added hadded hlive, hcount]
    simp [htype]
  · next htype =>
    have hst : s = t := (Prod.mk.inj (Option.some.inj h)).2
    subst hst
    exact ⟨rfl, hlive, fun ht => absurd ht htype, fun e => by simp [htype]⟩

/-- What reading the program headers has put into the table. -/
structure PhdrsLoaded (p : Pid) (file : FileAddr) (n : InodeNo) (fileOfs : Addr) (count : Nat)
    (s t : VmState) : Prop where
  live : ∀ i ∈ t.spt p, (t.spte i).isSome
  inode : t.inode = s.inode
  handle : (t.file file).map (·.inode) = some n
  bounds : ∀ k < count, (filePhdr (s.inode n).data fileOfs k).pType = PT_LOAD →
    SegmentBounds (filePhdr (s.inode n).data fileOfs k) (s.inode n).length
  entries : ∀ e, HasSpte p e t ↔ HasSpte p e s ∨
    SegmentEntry (s.inode n).data file fileOfs count e

private theorem loadPhdrs_spec {n : InodeNo} {fileOfs : Addr} {left : Nat}
    (hlive : ∀ i ∈ s.spt p, (s.spte i).isSome) (hfile : (s.file file).map (·.inode) = some n)
    (h : loadPhdrs p file left fileOfs s = some (true, t)) :
    PhdrsLoaded p file n fileOfs left s t := by
  induction left generalizing s fileOfs with
  | zero =>
    cases h
    refine ⟨hlive, rfl, hfile, fun k hk => absurd hk (Nat.not_lt_zero k), fun e => ?_⟩
    simp [SegmentEntry]
  | succ left ih =>
    simp only [loadPhdrs, Option.bind_eq_bind, Option.bind_eq_some_iff] at h
    obtain ⟨length, -, h⟩ := h
    split at h
    · cases h
    · simp only [Option.bind_eq_some_iff] at h
      obtain ⟨s1, hseek, ⟨m, bytes, s2⟩, hread, h⟩ := h
      obtain ⟨hm1, hk1, handle, hhandle, rfl⟩ := fileSeek_quiet hseek
      obtain ⟨hm2, hk2, handle2, hhandle2, hnew, hbytes⟩ := fileRead_quiet hread
      have hm := hm1.trans hm2
      have hinode : s2.inode = s.inode := hk2.inode.trans hk1.inode
      obtain rfl : { handle with pos := fileOfs.toNat } = handle2 := by
        simpa [setFile] using hhandle2
      obtain rfl : handle.inode = n := by simpa [hhandle] using hfile
      have hphdr : readPhdr bytes = filePhdr (s.inode handle.inode).data fileOfs 0 := by
        rw [hbytes, hinode, filePhdr]
        simp
      have hlive2 : ∀ i ∈ s2.spt p, (s2.spte i).isSome := by
        rw [hm.spt, hm.spte]
        exact hlive
      have hentries2 : ∀ e, HasSpte p e s2 ↔ HasSpte p e s := by
        intro e
        unfold HasSpte
        rw [hm.spt, hm.spte]
      dsimp only at h
      split at h
      · cases h
      · simp only [Option.bind_eq_some_iff] at h
        obtain ⟨⟨ok, s3⟩, hone, h⟩ := h
        dsimp only at h
        split at h
        · next hok =>
          rw [hok, hphdr] at hone
          obtain ⟨honly, hlive3, hbounds, hentries⟩ := loadPhdrByType_spec hlive2
            (by rw [hnew]; rfl) hone
          have hinode3 : s3.inode = s.inode := by rw [honly.inode, hinode]
          have hrest := ih hlive3 (by rw [honly.file, hnew]; rfl) h
          rw [hinode] at hbounds
          refine ⟨hrest.live, hrest.inode.trans hinode3, hrest.handle, fun k hk => ?_, fun e => ?_⟩
          · cases k with
            | zero => exact hbounds
            | succ k =>
              have hb := hrest.bounds k (Nat.lt_of_succ_lt_succ hk)
              rwa [filePhdr_succ, hinode3] at hb
          · rw [hrest.entries, hentries, hentries2, segmentEntry_succ, hinode3, or_assoc]
        · cases h

/-! ## A successful load -/

private theorem SegmentEntry.frame {data : Nat → UInt8} {fileOfs : Addr} {count : Nat}
    {e : SptEntry} (h : SegmentEntry data file fileOfs count e) : e.frame = none := by
  obtain ⟨_, _, _, _, _, rfl⟩ := h
  rfl

/-- Setting up the stack adds no page of the file and changes none. -/
theorem setupStack_hasSpte {r : Replacement} (h : Consistent .idle s)
    (hframe : ∀ e, HasSpte p e s → e.frame = none) (hlive : ∀ i ∈ s.spt p, (s.spte i).isSome)
    (hl : setupStack p r s = some (true, t)) {e : SptEntry} (htype : e.type = .file) :
    HasSpte p e t ↔ HasSpte p e s := by
  simp only [setupStack, Option.bind_eq_bind, Option.bind_eq_some_iff] at hl
  obtain ⟨⟨f, s1⟩, halloc, fr, hfr, pd, hpd, hl⟩ := hl
  obtain ⟨-, -, -, -, -, hkeep, -⟩ := h.frameAlloc_path halloc
  have hspt := h.spt_frameAlloc halloc
  have hold : ∀ j ∈ s.spt p, s1.spte j = s.spte j := by
    intro j hj
    obtain ⟨ej, hej⟩ := Option.isSome_iff_exists.mp (hlive j hj)
    rw [hkeep j ej hej (hframe ej ⟨j, hj, hej⟩), hej]
  dsimp only at hl
  split at hl
  · simp at hl
  · next pd' hinst =>
    split at hl
    · simp at hl
    · next i hi =>
      have hfresh : s1.spte i = none :=
        spte_of_mallocSpte (s := s1.takeHeap.2.setPagedir p pd') hi
      have hne : ∀ j ∈ s.spt p, j ≠ i := by
        rintro j hj rfl
        have hsome := hlive j hj
        rw [← hold j hj, hfresh] at hsome
        cases hsome
      split at hl
      · next s2 hins =>
        cases hl
        obtain ⟨-, rfl⟩ := sptInsertPage_true
          (e := { stackSpte p (PHYS_BASE - BitVec.ofNat 32 PGSIZE) with frame := some f })
          (by simp [VmState.setFrame, VmState.newSpte]) hins
        constructor
        · rintro ⟨j, hj, he⟩
          by_cases hji : j = i
          · subst hji
            have hstack : { stackSpte p (PHYS_BASE - BitVec.ofNat 32 PGSIZE) with
                frame := some f } = e := by
              simpa [VmState.setFrame, VmState.newSpte] using he
            rw [← hstack] at htype
            cases htype
          · have hj' : j ∈ s.spt p := by
              simpa [VmState.setFrame, VmState.newSpte, VmState.mallocSpte, VmState.setPagedir,
                VmState.takeHeap, hspt, hji] using hj
            refine ⟨j, hj', ?_⟩
            rw [← hold j hj']
            simpa [VmState.setFrame, VmState.newSpte, VmState.mallocSpte, VmState.setPagedir,
              VmState.takeHeap, hji] using he
        · rintro ⟨j, hj, he⟩
          refine ⟨j, ?_, ?_⟩
          · simp [VmState.setFrame, VmState.newSpte, VmState.mallocSpte, VmState.setPagedir,
              VmState.takeHeap, hspt, hj]
          · rw [← hold j hj] at he
            simpa [VmState.setFrame, VmState.newSpte, VmState.mallocSpte, VmState.setPagedir,
              VmState.takeHeap, hne j hj] using he
      · simp at hl

private theorem loadFile_hasSpte {n : InodeNo} {r : Replacement} (h : Consistent .idle s)
    (hp : (s.pagedir p).isSome) (hx : s.executable p = some file) (hspt : s.spt p = [])
    (hfile : s.file file = some ⟨n, 0, true⟩) (hl : loadFile p file r s = some (true, t)) :
    (∀ k < readLe (s.inode n).data 44 2,
      (filePhdr (s.inode n).data (elfWord (s.inode n).data 28) k).pType = PT_LOAD →
        SegmentBounds (filePhdr (s.inode n).data (elfWord (s.inode n).data 28) k)
          (s.inode n).length) ∧
    ∀ e : SptEntry, e.type = .file → (HasSpte p e t ↔ SegmentEntry (s.inode n).data file
      (elfWord (s.inode n).data 28) (readLe (s.inode n).data 44 2) e) := by
  simp only [loadFile, Option.bind_eq_bind, Option.bind_eq_some_iff] at hl
  obtain ⟨⟨m, ehdr, s1⟩, hread, hl⟩ := hl
  obtain ⟨hm, hk, handle, hhandle, hnew, hbytes⟩ := fileRead_quiet hread
  cases hfile.symm.trans hhandle
  have hehdr : ehdr = (s.inode n).data := by
    rw [hbytes, hk.inode]
    simp
  subst hehdr
  dsimp only at hl
  split at hl
  · rw [Option.bind_eq_some_iff] at hl
    obtain ⟨⟨ok, s2⟩, hphdrs, hl⟩ := hl
    dsimp only at hl
    split at hl
    · next hok =>
      rw [hok] at hphdrs
      have hnil : s1.spt p = [] := by rw [hm.spt, hspt]
      have hload := @loadPhdrs_spec s1 s2 p file n _ _ (by simp [hnil]) (by rw [hnew]; rfl) hphdrs
      have hfill := loadPhdrs_path (h.congr hm) (by rwa [hm.pagedir]) (by rwa [hk.executable])
        hphdrs
      have hentries : ∀ e, HasSpte p e s2 ↔ SegmentEntry (s.inode n).data file
          (elfWord (s.inode n).data 28) (readLe (s.inode n).data 44 2) e := by
        intro e
        rw [hload.entries, hk.inode]
        simp [HasSpte, hnil]
      refine ⟨fun k hlt ht => ?_, fun e he => ?_⟩
      · have hb := hload.bounds k hlt
        rw [hk.inode] at hb
        exact hb ht
      · rw [setupStack_hasSpte (hfill.path.consistent (h.congr hm))
          (fun e' he' => ((hentries e').mp he').frame) hload.live hl he, hentries]
    · cases hl
  · cases hl

/-! ## Reading the pages later -/

/-- The place in the file that an entry is read from lies in the file; `file_offset` is signed. -/
def Readable (length : Nat) (e : SptEntry) : Prop :=
  0 ≤ toInt32 e.fileOffset ∧ toInt32 e.fileOffset + e.readBytes ≤ length

section readable

variable {phdr : Elf32Phdr} {length k : Nat}

private theorem type_phdrPage :
    (phdrPage file phdr k).type = .file ↔ 0 < (phdrPage file phdr k).readBytes := by
  simp only [phdrPage, segmentPage, segmentSpte]
  split_ifs <;> simp_all

-- `q` and `a` are the starts of the file page and of the page in the segment, `r` the offset in
-- the first page, `m` what is left of the file from page `a` on.
private theorem readable_arith {q a r n o len : Nat} (ho : q + r = o) (hmax : len < 2 ^ 31)
    (hend : o + n ≤ len) (hpos : 0 < min (r + n - a) 4096) :
    0 ≤ toInt32 ((q + a) % 2 ^ 32) ∧
      toInt32 ((q + a) % 2 ^ 32) + (min (r + n - a) 4096 : Nat) ≤ len := by
  rw [Nat.mod_eq_of_lt (by omega), toInt32, if_pos (by omega)]
  omega

private theorem not_readable_arith {q a m r n o len : Nat} (ho : q + r = o) (hmax : len < 2 ^ 31)
    (hm : a + m = len - q) (hlt : m < 4096) (hle : o ≤ len) (hend : len < o + n) :
    0 < min (r + n - a) 4096 ∧
      ¬ toInt32 ((q + a) % 2 ^ 32) + (min (r + n - a) 4096 : Nat) ≤ len := by
  rw [Nat.mod_eq_of_lt (by omega), toInt32, if_pos (by omega)]
  omega

private theorem readable_of_end_le (h : SegmentBounds phdr length) (hmax : length < 2 ^ 31)
    (hend : 0 < phdr.pFilesz.toNat → phdr.pOffset.toNat + phdr.pFilesz.toNat ≤ length)
    (htype : (phdrPage file phdr k).type = .file) : Readable length (phdrPage file phdr k) := by
  have hof := Nat.div_add_mod' phdr.pOffset.toNat 4096
  rw [type_phdrPage, readBytes_phdrPage, h.toNat_readBytes, ← h.congruent] at htype
  rw [Readable, fileOffset_phdrPage, readBytes_phdrPage, h.toNat_readBytes, ← h.congruent]
  split at htype
  · next hpos =>
    rw [if_pos hpos]
    exact readable_arith hof hmax (hend hpos) htype
  · rw [Nat.zero_sub] at htype
    cases htype

/-- The page in which the file ends is not read completely if the segment goes on. -/
theorem end_le_of_readable (h : SegmentBounds phdr length) (hmax : length < 2 ^ 31)
    (hr : ∀ k < segmentPages phdr, (phdrPage file phdr k).type = .file →
      Readable length (phdrPage file phdr k)) (hpos : 0 < phdr.pFilesz.toNat) :
    phdr.pOffset.toNat + phdr.pFilesz.toNat ≤ length := by
  by_contra hlt
  rw [Nat.not_le] at hlt
  have hof := Nat.div_add_mod' phdr.pOffset.toNat 4096
  have hlast : (length - phdr.pOffset.toNat / 4096 * 4096) / 4096 < segmentPages phdr := by
    have hcongr := h.congruent
    have hmem := h.filesz_le
    unfold segmentPages
    omega
  obtain ⟨hread, hshort⟩ := not_readable_arith hof hmax
    (Nat.div_add_mod' (length - phdr.pOffset.toNat / 4096 * 4096) 4096)
    (Nat.mod_lt _ (by decide)) h.offset_le hlt
  have hrk := hr _ hlast
  rw [type_phdrPage, Readable, fileOffset_phdrPage, readBytes_phdrPage, h.toNat_readBytes,
    ← h.congruent, if_pos hpos] at hrk
  exact hshort (hrk hread).2

end readable

/-- A successful load is fully readable exactly when the file part of every segment ends within
the file. -/
theorem load_readable_iff {n : InodeNo} {r : Replacement} (h : Consistent .idle s)
    (hmax : (s.inode n).length < 2 ^ 31) (hx : execProcess p (some n) r s = some t) :
    (∀ i ∈ t.spt p, ∀ e, t.spte i = some e → e.type = .file → Readable (s.inode n).length e) ↔
      ∀ k < readLe (s.inode n).data 44 2,
        (filePhdr (s.inode n).data (elfWord (s.inode n).data 28) k).pType = PT_LOAD →
        0 < (filePhdr (s.inode n).data (elfWord (s.inode n).data 28) k).pFilesz.toNat →
          (filePhdr (s.inode n).data (elfWord (s.inode n).data 28) k).pOffset.toNat +
            (filePhdr (s.inode n).data (elfWord (s.inode n).data 28) k).pFilesz.toNat ≤
              (s.inode n).length := by
  unfold execProcess at hx
  split at hx
  swap
  · cases hx
  next hp =>
  rw [Option.isNone_iff_eq_none] at hp
  split at hx
  swap
  · cases hx
  next hl =>
  cases hx
  rcases load_some hl with ⟨hok, -⟩ | ⟨file, u, hopen, ⟨-, hfile⟩ | ⟨hok, -⟩⟩
  · cases hok
  · obtain ⟨m, hm, hopened⟩ := openExecutable_some hopen
    cases hm
    have hstart := hopened.started (h.spt_eq_nil hp)
    have hu := (Effect.create hp hstart.memory).consistent h
    obtain ⟨-, -, heap, rfl⟩ := hopened
    obtain ⟨hbounds, hentries⟩ := @loadFile_hasSpte _ t p file n r hu (by simp) (by simp)
      (by simp [initProcess]) (by simp) hfile
    simp only [Function.update_self] at hbounds hentries
    constructor
    · intro hr k hk hload hpos
      apply @end_le_of_readable file _ _ (hbounds k hk hload) hmax _ hpos
      intro j hj htype
      obtain ⟨i, hi, he⟩ := (hentries _ htype).mpr ⟨k, hk, hload, j, hj, rfl⟩
      exact hr i hi _ he htype
    · intro hend i hi e he htype
      obtain ⟨k, hk, hload, j, hj, rfl⟩ := (hentries e htype).mp ⟨i, hi, he⟩
      exact readable_of_end_le (hbounds k hk hload) hmax (hend k hk hload) htype
  · cases hok

/-- An executable that holds all of its segment. -/
theorem load_readable_iff_one_page :
    ∃ t, execProcess 0 (some 0) .clock (oneSegmentMachine 84 0) = some t ∧
      ∀ i ∈ t.spt 0, ∀ e, t.spte i = some e → e.type = .file → Readable 84 e := by
  have hload : (execProcess 0 (some 0) .clock (oneSegmentMachine 84 0)).isSome = true := by
    decide +kernel
  obtain ⟨t, ht⟩ := Option.isSome_iff_exists.mp hload
  have hend : ∀ k < readLe (oneSegment 84 0).data 44 2,
      (filePhdr (oneSegment 84 0).data (elfWord (oneSegment 84 0).data 28) k).pType = PT_LOAD →
      0 < (filePhdr (oneSegment 84 0).data (elfWord (oneSegment 84 0).data 28) k).pFilesz.toNat →
        (filePhdr (oneSegment 84 0).data (elfWord (oneSegment 84 0).data 28) k).pOffset.toNat +
          (filePhdr (oneSegment 84 0).data (elfWord (oneSegment 84 0).data 28) k).pFilesz.toNat ≤
            84 := by decide +kernel
  exact ⟨t, ht, (load_readable_iff (consistent_init ..) (by decide) ht).mpr hend⟩

/-- A segment of 4096 bytes in a file of 84 is loaded, and its page cannot be read. -/
theorem truncated_segment_loads :
    ∃ t i e, execProcess 0 (some 0) .clock (oneSegmentMachine 0 0x10) = some t ∧ i ∈ t.spt 0 ∧
      t.spte i = some e ∧ e.type = .file ∧ e.fileOffset = 0 ∧ e.readBytes = 4096 ∧
      ¬ Readable 84 e := by
  have hload : (execProcess 0 (some 0) .clock (oneSegmentMachine 0 0x10)).any (fun t =>
      (t.spt 0).any fun i => (t.spte i).any fun e =>
        e.type == .file && e.fileOffset == 0 && e.readBytes == 4096) = true := by decide +kernel
  simp only [Option.any_eq_true, List.any_eq_true, Bool.and_eq_true, beq_iff_eq] at hload
  obtain ⟨t, ht, i, hi, e, he, ⟨htype, hofs⟩, hbytes⟩ := hload
  refine ⟨t, i, e, ht, hi, he, htype, hofs, hbytes, ?_⟩
  rw [Readable, hofs, hbytes]
  decide

end Pintos.Userprog

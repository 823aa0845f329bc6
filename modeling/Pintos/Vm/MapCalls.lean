import Pintos.Vm.ProcessEnd

/-!
# Mapping and unmapping a file

`mmap_map` and `mmap_unmap` as a process sees them in any state that the kernel reaches: a
failed call changes nothing, a successful one adds exactly the pages of the file, and unmapping
takes exactly these away again. The address check of `mmap_map` looks at the first page only, so
a mapping can reach into the stack area.
Source `vm/mmap.c:18–149`, `userprog/exception.c:227–257`.
-/

namespace Pintos.Vm

open Pintos.Base Pintos.Threads Pintos.Userprog Pintos.Lib Pintos.Filesys

variable {s t u : VmState} {p : Pid} {m : MmapEntry} {added : List SpteAddr}

/-! ## The calls from any reachable state -/

private theorem mmapSpte_bytes (p : Pid) (m : MmapEntry) (n : Nat) :
    (mmapSpte p m n).readBytes = min PGSIZE (m.size - n * PGSIZE) ∧
      (mmapSpte p m n).readBytes + (mmapSpte p m n).zeroBytes = PGSIZE := by
  simp only [mmapSpte]
  split <;> omega

private theorem Vacant.toNat_lt {addr : Addr} {pages n : Nat} (h : Vacant p addr pages s)
    (hn : n < pages) : (mmapPage addr n).toNat = addr.toNat + n * PGSIZE ∧
      (mmapPage addr n).toNat < PHYS_BASE.toNat ∧ sptLookup s p (mmapPage addr n) = none := by
  refine ⟨h.range.toNat n hn, ?_, ?_⟩
  · exact (isUserVaddr_iff _).mp (h.range.user n hn)
  · rw [sptLookup, pgRoundDown_of_pgOfs_eq_zero (h.range.pgOfs_mmapPage hn)]
    cases hfind : sptFind s p (mmapPage addr n) with
    | none => rfl
    | some i =>
      obtain ⟨hi, e, he, hup⟩ := sptFind_some hfind
      exact absurd hup (h.free i hi e he n hn)

/-- The id of a mapping on the list finds this mapping. -/
private theorem Holdings.WellFormed.find_eq {h : Holdings} (hok : h.WellFormed)
    (hm : m ∈ h.mmapList) :
    h.mmapList.find? (fun m' => (m'.mapid : Int) == (m.mapid : Int)) = some m := by
  cases hfind : h.mmapList.find? (fun m' => (m'.mapid : Int) == (m.mapid : Int)) with
  | none => simpa using List.find?_eq_none.mp hfind m hm
  | some m' =>
    have hid : m'.mapid = m.mapid := by
      have hfound := List.find?_some hfind
      rw [beq_iff_eq] at hfound
      omega
    rw [List.inj_on_of_nodup_map hok.ids (List.mem_of_find?_eq_some hfind) hm hid]

/-- In every state that the kernel reaches: if `mmap_map` fails, entries and mappings are as
before. If it returns an id, the id is new, the pages of the file from `addr` on were free user
pages, exactly they have got an entry, each for its part of the file, and nothing else has
changed. `mmap_unmap` of the id then succeeds and removes exactly the entries of these pages, at
once or after any steps of any processes that leave the mapping on the list. -/
theorem mmap_map_exact {pages slots : Nat} {mem : KPage → PageData} {device : Nat → SectorData}
    {inode : InodeNo → Inode} {heap : Nat → Option Nat} {ops : List Op} {fd : Int} {addr : Addr}
    {o : Option Nat} (hcounts : ∀ n, (inode n).denyWriteCnt ≤ (inode n).openCnt)
    (hr : run step (VmState.init pages slots mem device inode heap) ops = some s)
    (hp : (s.pagedir p).isSome) (hm : mmapMap p fd addr s = some (o, t)) :
    (o = none → t.spt = s.spt ∧ t.spte = s.spte ∧ t.mmapList = s.mmapList) ∧
    ∀ id, o = some id → ∃ (m : MmapEntry) (added : List SpteAddr),
      m.mapid = id ∧ (∀ m' ∈ s.mmapList p, m'.mapid ≠ id) ∧
      (∃ f, mmapFile s p fd = some f ∧ fileLength f s = some m.size) ∧
      t.mmapList = Function.update s.mmapList p (s.mmapList p ++ [m]) ∧
      (∀ n < mmapPageCount m.size, (mmapPage addr n).toNat = addr.toNat + n * PGSIZE ∧
        (mmapPage addr n).toNat < PHYS_BASE.toNat ∧ sptLookup s p (mmapPage addr n) = none) ∧
      (added.length = mmapPageCount m.size ∧ added.Nodup ∧ ∀ i ∈ added, s.spte i = none) ∧
      (∀ i, i ∈ t.spt p ↔ i ∈ s.spt p ∨ i ∈ added) ∧ (∀ q, q ≠ p → t.spt q = s.spt q) ∧
      (∀ i, i ∉ added → t.spte i = s.spte i) ∧
      (∀ n i, added[n]? = some i → ∃ e, t.spte i = some e ∧ e.upage = mmapPage addr n ∧
        e.type = .file ∧ e.fileOffset = n * PGSIZE ∧
        e.readBytes = min PGSIZE (m.size - n * PGSIZE) ∧ e.readBytes + e.zeroBytes = PGSIZE) ∧
      ∀ ops' t', run step t ops' = some t' → (t'.pagedir p).isSome → m ∈ t'.mmapList p →
        ∃ u, mmapUnmap p id t' = some u ∧
          (∀ q i, i ∈ u.spt q ↔ i ∈ t'.spt q ∧ (q = p → ∀ e n, t'.spte i = some e →
            n < mmapPageCount m.size → e.upage ≠ mmapPage addr n)) ∧
          ∀ q i, i ∈ u.spt q → u.spte i = t'.spte i := by
  have ho := orderly_run hcounts hr
  have hc := ho.consistent
  rcases hc.mmapMap_spec hm with ⟨rfl, hfail⟩ | ⟨m, added, rfl, hmade⟩
  · exact ⟨fun _ => ⟨hfail.spt, hfail.spte, hfail.mmapList⟩, fun id hid => by cases hid⟩
  · refine ⟨fun hnone => (by cases hnone), fun id hid => ?_⟩
    cases hid
    obtain ⟨f, file, hf, hfile, hsize, -⟩ := hmade.handle
    refine ⟨m, added, rfl, fun m' hm' => ?_, ⟨f, hf, ?_⟩, hmade.mmapList,
      fun n hn => hmade.vacant.toNat_lt hn, ⟨hmade.length, hmade.inserted.nodup,
      hmade.inserted.fresh⟩, fun i => hmade.inserted.mem_spt.trans or_comm, fun q hq => ?_,
      hmade.inserted.other, fun n i hi => ?_, fun ops' t' hrun hp' hon => ?_⟩
    · rw [hmade.mapid_eq]
      exact ((ho.files.tables p).below m' hm').ne
    · rw [fileLength, hfile, hsize]
      rfl
    · rw [hmade.inserted.spt, Function.update_of_ne hq]
    · have he := hmade.inserted.entry n i hi
      rw [Nat.zero_add] at he
      obtain ⟨hread, hsum⟩ := mmapSpte_bytes p m n
      exact ⟨_, he, by rw [← hmade.addr_eq]; rfl, rfl, rfl, hread, hsum⟩
    · have hstep : step s (.call p (.mmapMap fd addr)) = some t := by
        simp [step, hp, call, hm]
      have ho' : Orderly none t' := run_preserves (fun _ _ _ h hs => h.step hs) (ho.step hstep) hrun
      obtain ⟨u, hu, hou, hun, -⟩ := ho'.unmap_total hp' ((ho'.files.tables p).find_eq hon)
      refine ⟨u, hu, fun q i => ⟨fun hi => ⟨hun.shrinks.spt q i hi, ?_⟩, fun hi => ?_⟩, fun q i hi => ?_⟩
      · rintro rfl e n he hn
        obtain ⟨e', he', -⟩ := hou.consistent.entry q i hi
        cases he.symm.trans (hun.shrinks.spte i e' he')
        rw [← hmade.addr_eq]
        exact hun.gone i hi e he' n hn
      · obtain ⟨e, he, -⟩ := ho'.consistent.entry q i hi.1
        refine (hun.kept q i e hi.1 he (or_iff_not_imp_left.mpr fun hq n hn => ?_)).1
        rw [hmade.addr_eq]
        exact hi.2 (not_not.mp hq) e n he hn
      · obtain ⟨e, he, -⟩ := hou.consistent.entry q i hi
        rw [he, hun.shrinks.spte i e he]

/-- A machine with an empty program in file 0; the other files have two pages of sevens. -/
def twoPageFiles : VmState :=
  VmState.init 4 4 (fun _ _ => 0) (fun _ _ => 0)
    (fun n => if n = 0 then emptyProgram
      else { length := 2 * PGSIZE, data := fun _ => 7, openCnt := 0, denyWriteCnt := 0 })
    fun n => some (n + 1)

theorem counts_twoPageFiles (n : InodeNo) :
    (twoPageFiles.inode n).denyWriteCnt ≤ (twoPageFiles.inode n).openCnt := by
  simp only [twoPageFiles, VmState.init]
  split <;> exact Nat.le_refl _

/-- A file of two pages is mapped and unmapped again. -/
theorem mmap_map_exact_two_pages :
    ∃ s t m u, run step twoPageFiles [.exec 0 (some 0) .clock, .call 0 (.openFile (some 1))] =
        some s ∧ mmapMap 0 2 0x10000000 s = some (some 1, t) ∧ m ∈ t.mmapList 0 ∧
      mmapUnmap 0 1 t = some u ∧ ∀ i ∈ u.spt 0, ∀ e n, t.spte i = some e →
        n < mmapPageCount m.size → e.upage ≠ mmapPage 0x10000000 n := by
  obtain ⟨s, hs, hmap⟩ := run_reaches step twoPageFiles
    [.exec 0 (some 0) .clock, .call 0 (.openFile (some 1))]
    (fun s => (s.pagedir 0).isSome && (mmapMap 0 2 0x10000000 s).any fun r =>
      r.1 == some 1 && (r.2.pagedir 0).isSome) (by decide +kernel)
  simp only [Bool.and_eq_true, Option.any_eq_true, beq_iff_eq] at hmap
  obtain ⟨hp, ⟨o, t⟩, ht, rfl, hpt⟩ := hmap
  obtain ⟨-, hmade⟩ := mmap_map_exact counts_twoPageFiles hs hp ht
  obtain ⟨m, added, -, -, -, hlist, -, -, -, -, -, -, hlater⟩ := hmade 1 rfl
  have hon : m ∈ t.mmapList 0 := by simp [hlist]
  obtain ⟨u, hu, hspt, -⟩ := hlater [] t rfl hpt hon
  exact ⟨s, t, m, u, hs, ht, hon, hu, fun i hi => ((hspt 0 i).mp hi).2 rfl⟩

/-! ## The stack area -/

private theorem isStackPage_iff (a : Addr) :
    isStackPage a = true ↔ 0xbf800000 ≤ a.toNat ∧ a.toNat < 0xc0000000 := by
  rw [isStackPage, Bool.and_eq_true, decide_eq_true_eq, decide_eq_true_eq, BitVec.le_def,
    BitVec.lt_def]
  exact Iff.rfl

/-- A page of a mapping is an entry that `mmap_map` has added. No page of a mapping lies in the
stack area exactly if the mapping ends below it; `mmap_map` checks where it begins. -/
theorem mapping_avoids_stack_iff {pages slots : Nat} {mem : KPage → PageData}
    {device : Nat → SectorData} {inode : InodeNo → Inode} {heap : Nat → Option Nat}
    {ops : List Op} {fd : Int} {addr : Addr} {id : Nat}
    (hr : run step (VmState.init pages slots mem device inode heap) ops = some s)
    (hm : mmapMap p fd addr s = some (some id, t)) :
    ∃ f size, mmapFile s p fd = some f ∧ fileLength f s = some size ∧
      ((∀ i e, i ∈ t.spt p → i ∉ s.spt p → t.spte i = some e → isStackPage e.upage = false) ↔
        addr.toNat + mmapPageCount size * PGSIZE ≤ STACK_LIMIT.toNat) := by
  have hc := consistent_run hr
  rcases hc.mmapMap_spec hm with ⟨hnone, -⟩ | ⟨m, added, -, hmade⟩
  · cases hnone
  · obtain ⟨f, file, hf, hfile, hsize, -⟩ := hmade.handle
    refine ⟨f, m.size, hf, by rw [fileLength, hfile, hsize]; rfl, ?_⟩
    have hlimit : STACK_LIMIT.toNat = 0xbf800000 := rfl
    have hentry : ∀ n < mmapPageCount m.size, ∃ i, i ∈ added ∧
        t.spte i = some (mmapSpte p m n) := by
      intro n hn
      have hlt : n < added.length := by rw [hmade.length]; exact hn
      have he := hmade.inserted.entry n _ (List.getElem?_eq_getElem hlt)
      rw [Nat.zero_add] at he
      exact ⟨_, List.getElem_mem hlt, he⟩
    have hnat : ∀ n < mmapPageCount m.size, (mmapPage m.addr n).toNat = addr.toNat + n * 4096 ∧
        (mmapPage m.addr n).toNat < 0xc0000000 := by
      intro n hn
      rw [hmade.addr_eq]
      obtain ⟨htoNat, huser, -⟩ := hmade.vacant.toNat_lt hn
      exact ⟨htoNat, huser⟩
    rw [hlimit]
    constructor
    · intro hall
      have hpos : 0 < mmapPageCount m.size := by
        have hne := hmade.size_ne
        unfold mmapPageCount PGSIZE
        omega
      -- The last page decides.
      obtain ⟨i, hi, he⟩ := hentry (mmapPageCount m.size - 1) (by omega)
      obtain ⟨hlast, huser⟩ := hnat (mmapPageCount m.size - 1) (by omega)
      have hnew : i ∉ s.spt p := by
        intro hmem
        have hlive := hmade.vacant.live i hmem
        rw [hmade.inserted.fresh i hi] at hlive
        cases hlive
      have hout := hall i _ (hmade.inserted.mem_spt.mpr (.inl hi)) hnew he
      have hnot : ¬ (0xbf800000 ≤ (mmapPage m.addr (mmapPageCount m.size - 1)).toNat ∧
          (mmapPage m.addr (mmapPageCount m.size - 1)).toNat < 0xc0000000) := by
        rw [← isStackPage_iff]
        simpa [mmapSpte] using hout
      have haligned := hmade.vacant.range.ofs
      rw [pgOfs_eq_zero_iff] at haligned
      unfold PGSIZE
      omega
    · intro hle i e hi hnew he
      rcases hmade.inserted.cases_entry hmade.vacant.live hi he with
        ⟨n, hn, rfl⟩ | ⟨-, hold, -⟩
      · have hlt := (List.getElem?_eq_some_iff.mp hn).1
        rw [hmade.length] at hlt
        obtain ⟨htoNat, -⟩ := hnat n hlt
        rw [Nat.zero_add, ← Bool.not_eq_true]
        change ¬ isStackPage (mmapPage m.addr n) = true
        rw [isStackPage_iff]
        unfold PGSIZE at hle
        omega
      · exact absurd hold hnew

theorem mapping_avoids_stack_iff_low :
    ∃ s t, run step twoPageFiles [.exec 0 (some 0) .clock, .call 0 (.openFile (some 1))] =
        some s ∧ mmapMap 0 2 0x10000000 s = some (some 1, t) ∧
      ∀ i e, i ∈ t.spt 0 → i ∉ s.spt 0 → t.spte i = some e → isStackPage e.upage = false := by
  obtain ⟨s, hs, hmap⟩ := run_reaches step twoPageFiles
    [.exec 0 (some 0) .clock, .call 0 (.openFile (some 1))]
    (fun s => ((mmapFile s 0 2).bind fun f => fileLength f s) == some (2 * PGSIZE) &&
      (mmapMap 0 2 0x10000000 s).any fun r => r.1 == some 1)
    (by decide +kernel)
  rw [Bool.and_eq_true, beq_iff_eq, Option.any_eq_true] at hmap
  obtain ⟨hlen, ⟨o, t⟩, ht, ho⟩ := hmap
  cases eq_of_beq ho
  obtain ⟨f, size, hf, hsize, hiff⟩ := mapping_avoids_stack_iff hs ht
  rw [hf, Option.bind_some, hsize] at hlen
  cases hlen
  exact ⟨s, t, hs, ht, hiff.mpr (by decide)⟩

/-- A file of two pages is mapped just below the stack area: its second page lies in the area. A
push by the process there, which stack growth should serve with a page of zeros, finds the
bytes of the file. -/
theorem mapping_reaches_into_stack :
    ∃ s t u i e byte, run step twoPageFiles
        [.exec 0 (some 0) .clock, .call 0 (.openFile (some 1))] = some s ∧
      mmapMap 0 2 0xbf7ff000 s = some (some 1, t) ∧ i ∈ t.spt 0 ∧ i ∉ s.spt 0 ∧
      t.spte i = some e ∧ isStackPage e.upage = true ∧
      step t (.call 0 (.fault ⟨0xbf800ffc, true, true, 0xbf801000⟩ true .clock)) = some u ∧
      (mmuFetch 0 0xbf800ffc u).map Prod.fst = some byte ∧ byte = 7 := by
  obtain ⟨s, hs, hmap⟩ := run_reaches step twoPageFiles
    [.exec 0 (some 0) .clock, .call 0 (.openFile (some 1))]
    (fun s => (mmapMap 0 2 0xbf7ff000 s).any fun r => r.1 == some 1 &&
      ((r.2.spt 0).any fun i => decide (i ∉ s.spt 0) &&
        (r.2.spte i).any fun e => isStackPage e.upage) &&
      (step r.2 (.call 0 (.fault ⟨0xbf800ffc, true, true, 0xbf801000⟩ true .clock))).any fun u =>
        (mmuFetch 0 0xbf800ffc u).map Prod.fst == some 7) (by decide +kernel)
  simp only [Option.any_eq_true, Bool.and_eq_true, List.any_eq_true, decide_eq_true_eq,
    beq_iff_eq] at hmap
  obtain ⟨⟨o, t⟩, ht, ⟨rfl, i, hi, hnew, e, he, hstack⟩, u, hu, hbyte⟩ := hmap
  exact ⟨s, t, u, i, e, 7, hs, ht, hi, hnew, he, hstack, hu, hbyte, rfl⟩

end Pintos.Vm

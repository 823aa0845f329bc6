import Pintos.Vm.NewEntries
import Pintos.Vm.OpenFiles
import Pintos.Vm.Reachable

/-!
# What a mapping adds

`mmap_map` either adds one entry for each page of the file, or undoes what it has added. Its loops
go through the same pages as the check before them. Source `vm/mmap.c:18–108`.
-/

namespace Pintos.Vm

open Pintos.Base Pintos.Threads Pintos.Userprog Pintos.Lib Pintos.Filesys

variable {addr : Addr} {left : Nat} {e : SptEntry} {i : SpteAddr}

variable {s t u : VmState} {p : Pid} {m : MmapEntry} {added : List SpteAddr}

/-- The pages of a range are user pages without an entry, and the table lists live entries. -/
structure Vacant (p : Pid) (addr : Addr) (pages : Nat) (s : VmState) : Prop where
  range : Range addr pages
  live : ∀ i ∈ s.spt p, (s.spte i).isSome
  free : ∀ i ∈ s.spt p, ∀ e, s.spte i = some e → ∀ n < pages, e.upage ≠ mmapPage addr n

/-- The entries `added`, new ones, have been made for the pages of `m` from page `k` on. -/
abbrev Inserted (p : Pid) (m : MmapEntry) (k : Nat) (added : List SpteAddr) (s t : VmState) :
    Prop :=
  EntriesAdded p (fun j => mmapSpte p m (k + j)) added s t

namespace Inserted

variable {k pages : Nat}

private theorem sptFind_next (h : Inserted p m k added s t) (hv : Vacant p m.addr pages s)
    (hk : k + added.length < pages) : sptFind t p (mmapPage m.addr (k + added.length)) = none := by
  cases hfind : sptFind t p (mmapPage m.addr (k + added.length)) with
  | none => rfl
  | some i =>
    obtain ⟨hi, e, he, hup⟩ := sptFind_some hfind
    rcases h.cases_entry hv.live hi he with ⟨j, hj, rfl⟩ | ⟨-, hold, he⟩
    · have hlt := (List.getElem?_eq_some_iff.mp hj).1
      exact absurd hup (hv.range.ne (by omega) hk (by omega))
    · exact absurd hup (hv.free i hold e he _ hk)

private theorem sptFind_first (h : Inserted p m k (i :: added) s t)
    (hv : Vacant p m.addr pages s) (hk : k + added.length < pages) :
    sptFind t p (mmapPage m.addr k) = some i := by
  have hfirst : t.spte i = some (mmapSpte p m k) := h.entry 0 i rfl
  cases hfind : sptFind t p (mmapPage m.addr k) with
  | none =>
    have hmem : i ∈ t.spt p := h.mem_spt.mpr (.inl List.mem_cons_self)
    exact absurd rfl (sptFind_none hfind i hmem _ hfirst)
  | some i' =>
    obtain ⟨hi, e, he, hup⟩ := sptFind_some hfind
    rcases h.cases_entry hv.live hi he with ⟨j, hj, rfl⟩ | ⟨-, hold, he⟩
    · have hlt := (List.getElem?_eq_some_iff.mp hj).1
      rw [List.length_cons] at hlt
      cases j with
      | zero => exact hj.symm
      | succ j => exact absurd hup (hv.range.ne (by omega) (by omega) (by omega))
    · exact absurd hup (hv.free i' hold e he k (by omega))

private theorem snoc (h : Inserted p m k added s t) (hi : t.spte i = none) :
    Inserted p m k (added ++ [i]) s
      { t.newSpte i (mmapSpte p m (k + added.length)) with
        spt := Function.update t.spt p (i :: t.spt p) } := by
  have hnot : i ∉ added := by
    intro hmem
    obtain ⟨j, hj⟩ := List.getElem?_of_mem hmem
    rw [h.entry j i hj] at hi
    cases hi
  refine ⟨?_, fun j i' hj => ?_, fun i' hi' => ?_, fun i' hi' => ?_, ?_⟩
  · simp [h.spt]
  · rw [List.getElem?_append] at hj
    split at hj
    · next hlt =>
      have hne : i' ≠ i := by
        intro heq
        rw [heq] at hj
        exact hnot (List.mem_of_getElem? hj)
      simpa [VmState.newSpte, hne] using h.entry j i' hj
    · next hge =>
      have hj0 : j - added.length = 0 := by
        have hlt := (List.getElem?_eq_some_iff.mp hj).1
        simpa using hlt
      rw [hj0] at hj
      cases hj
      obtain rfl : j = added.length := by omega
      simp [VmState.newSpte]
  · rw [List.mem_append, not_or, List.mem_singleton] at hi'
    simpa [VmState.newSpte, hi'.2] using h.other i' hi'.1
  · rcases List.mem_append.mp hi' with hmem | hmem
    · exact h.fresh i' hmem
    · rw [List.mem_singleton.mp hmem, ← h.other i hnot]
      exact hi
  · rw [List.nodup_append]
    refine ⟨h.nodup, List.nodup_singleton i, fun a ha b hb hab => hnot ?_⟩
    rwa [← List.mem_singleton.mp hb, ← hab]

private theorem tail (h : Inserted p m k (i :: added) s t) :
    Inserted p m (k + 1) added s (t.entryFreed p i) := by
  have hnodup := List.nodup_cons.mp h.nodup
  refine ⟨?_, fun j i' hj => ?_, fun i' hi' => ?_, fun i' hi' => ?_, hnodup.2⟩
  · have herase : (added.reverse ++ i :: s.spt p).erase i = added.reverse ++ s.spt p := by
      rw [List.erase_append_right _ (by simpa using hnodup.1), List.erase_cons_head]
    simp [VmState.entryFreed, h.spt, herase]
  · have hne : i' ≠ i := by
      intro heq
      rw [heq] at hj
      exact hnodup.1 (List.mem_of_getElem? hj)
    have hentry := h.entry (j + 1) i' hj
    rw [← Nat.add_assoc, Nat.add_right_comm] at hentry
    simpa [VmState.entryFreed, hne] using hentry
  · by_cases hne : i' = i
    · rw [hne, h.fresh i List.mem_cons_self]
      simp [VmState.entryFreed]
    · have hnot : i' ∉ i :: added := by simp [hne, hi']
      simpa [VmState.entryFreed, hne] using h.other i' hnot
  · exact h.fresh i' (List.mem_cons_of_mem i hi')

end Inserted

/-- Rolling the pages back, one by one, leaves the tables as they were. -/
private theorem Inserted.rollback {k pages : Nat} (h : Inserted p m k added s t)
    (hv : Vacant p m.addr pages s) (hk : k + added.length ≤ pages) :
    ∃ u, (List.range' k added.length).foldl
        (fun s j => mmapRollbackPage p (mmapPage m.addr j) s) t = u ∧
      Inserted p m (k + added.length) [] s u := by
  induction added generalizing k t with
  | nil => exact ⟨t, rfl, h⟩
  | cons i added ih =>
    rw [List.length_cons] at hk ⊢
    have hfind := h.sptFind_first hv (by omega)
    have hstep : mmapRollbackPage p (mmapPage m.addr k) t = t.entryFreed p i := by
      simp only [mmapRollbackPage, sptDelete, hfind]
      rfl
    obtain ⟨u, hfold, hu⟩ := ih h.tail (by omega)
    refine ⟨u, ?_, ?_⟩
    · rw [List.range'_succ, List.foldl_cons, hstep]
      exact hfold
    · rw [Nat.add_assoc, Nat.add_comm 1] at hu
      exact hu

/-- The insertion loop makes an entry for each page that is left, or undoes all it has made. -/
private theorem Inserted.mmapInsert {pages : Nat} {ok : Bool}
    (h : Inserted p m 0 added s t) (hv : Vacant p m.addr pages s)
    (hleft : added.length + left = pages) (hi : Vm.mmapInsert p m left added.length t = (ok, u)) :
    (ok = true → ∃ added', added'.length = pages ∧ Inserted p m 0 added' s u) ∧
      (ok = false → Inserted p m 0 [] s u) := by
  induction left generalizing added t with
  | zero =>
    cases hi
    exact ⟨fun _ => ⟨added, by omega, h⟩, fun hf => by cases hf⟩
  | succ left ih =>
    have hheap : Inserted p m 0 added s t.takeHeap.2 :=
      ⟨h.spt, h.entry, h.other, h.fresh, h.nodup⟩
    unfold Vm.mmapInsert at hi
    split at hi
    · cases hi
      obtain ⟨u, hfold, hu⟩ := hheap.rollback hv (by omega)
      refine ⟨fun ht => (by cases ht), fun _ => ?_⟩
      rw [← List.range_eq_range'] at hfold
      rw [mmapRollback, VmState.mallocSpte, hfold]
      exact ⟨hu.spt, by simp, hu.other, by simp, hu.nodup⟩
    · next i hmalloc =>
      have hfresh : t.takeHeap.2.spte i = none := spte_of_mallocSpte (s := t) hmalloc
      have hnext := hheap.sptFind_next hv (by omega)
      have hnew := hheap.snoc hfresh
      rw [Nat.zero_add] at hnew hnext
      have hnot : i ∉ t.takeHeap.2.spt p := by
        intro hmem
        obtain ⟨e, he⟩ := Option.isSome_iff_exists.mp (hheap.live hv.live hmem)
        cases hfresh.symm.trans he
      rw [VmState.mallocSpte, sptInsertPage_newSpte hnot hnext] at hi
      have hlen : (added ++ [i]).length = added.length + 1 := by simp
      apply ih hnew (by omega)
      rw [hlen]
      exact hi

/-! ## `mmap_map` -/

private theorem onlyEntries_rollbackPage (p : Pid) (upage : Addr) (s : VmState) :
    OnlyEntries s (mmapRollbackPage p upage s) := by
  unfold mmapRollbackPage sptDelete
  cases sptFind s p upage <;> rfl

private theorem onlyEntries_insertPage (p : Pid) (i : SpteAddr) (s : VmState) :
    OnlyEntries s (sptInsertPage p i s).2 := by
  unfold sptInsertPage
  split
  · rfl
  · split <;> rfl

private theorem onlyEntries_mmapInsert {n : Nat} :
    OnlyEntries s (mmapInsert p m left n s).2 := by
  induction left generalizing s n with
  | zero => rfl
  | succ left ih =>
    unfold mmapInsert
    split
    · have hfold : ∀ (l : List Nat) (s : VmState), OnlyEntries s
          (l.foldl (fun s j => mmapRollbackPage p (mmapPage m.addr j) s) s) := by
        intro l
        induction l with
        | nil => exact fun _ => rfl
        | cons j l ih =>
          intro s
          exact (onlyEntries_rollbackPage p _ s).trans (ih _)
      have hheap : OnlyEntries s s.mallocSpte.2 := rfl
      exact hheap.trans (hfold _ _)
    · next i _ =>
      have hnew : OnlyEntries s (s.mallocSpte.2.newSpte i (mmapSpte p m n)) := rfl
      exact (hnew.trans (onlyEntries_insertPage p i _)).trans ih

private theorem OnlyEntries.of_mmapInsert {n : Nat} {ok : Bool}
    (h : mmapInsert p m left n s = (ok, t)) : OnlyEntries s t := by
  have honly : OnlyEntries s (mmapInsert p m left n s).2 := onlyEntries_mmapInsert
  rwa [h] at honly

/-- What `mmap_map` has done when it returns the id of mapping `m`. -/
structure MapMade (p : Pid) (fd : Int) (addr : Addr) (m : MmapEntry) (added : List SpteAddr)
    (s t : VmState) : Prop where
  handle : ∃ f file, mmapFile s p fd = some f ∧ s.file f = some file ∧
    m.size = (s.inode file.inode).length ∧ s.file m.file = none ∧
    t.file = Function.update s.file m.file (some ⟨file.inode, 0, false⟩)
  size_ne : m.size ≠ 0
  addr_eq : m.addr = addr
  addr_ok : mmapAddrOk addr = true
  mapid_eq : m.mapid = s.nextMapid p
  vacant : Vacant p addr (mmapPageCount m.size) s
  length : added.length = mmapPageCount m.size
  inserted : Inserted p m 0 added s t
  mmapList : t.mmapList = Function.update s.mmapList p (s.mmapList p ++ [m])
  nextMapid : t.nextMapid = Function.update s.nextMapid p (s.nextMapid p + 1)
  counts : CountsOk s → CountsOk t
  rest : t = { s with
    spt := t.spt, spte := t.spte, heap := t.heap, swapLog := t.swapLog, file := t.file,
    inode := t.inode, mmapList := t.mmapList, nextMapid := t.nextMapid }

/-- What `mmap_map` has done when it returns `MAP_FAILED`: an id may be lost. -/
structure MapFailed (p : Pid) (s t : VmState) : Prop where
  spt : t.spt = s.spt
  spte : t.spte = s.spte
  mmapList : t.mmapList = s.mmapList
  file : t.file = s.file
  nextMapid : t.nextMapid = s.nextMapid ∨
    t.nextMapid = Function.update s.nextMapid p (s.nextMapid p + 1)
  counts : CountsOk s → CountsOk t
  rest : t = { s with
    heap := t.heap, swapLog := t.swapLog, inode := t.inode, nextMapid := t.nextMapid }

private theorem mapFailed_refl (p : Pid) (s : VmState) : MapFailed p s s :=
  ⟨rfl, rfl, rfl, rfl, .inl rfl, id, rfl⟩

private theorem Inserted.eq_of_nil {k : Nat} (h : Inserted p m k [] s t) :
    t.spt = s.spt ∧ t.spte = s.spte := by
  refine ⟨?_, funext fun i => h.other i (by simp)⟩
  rw [h.spt]
  simp

private theorem mmapCreate_spec {f : FileAddr} {size : Nat} {o : Option Nat}
    (hv : Vacant p addr (mmapPageCount size) s) (hm : mmapCreate p f addr size s = some (o, t)) :
    (o = none ∧ MapFailed p s t) ∨
      ∃ m added file, o = some m.mapid ∧ m.addr = addr ∧ m.size = size ∧
        m.mapid = s.nextMapid p ∧ added.length = mmapPageCount size ∧
        Inserted p m 0 added s t ∧ s.file f = some file ∧ s.file m.file = none ∧
        t.file = Function.update s.file m.file (some ⟨file.inode, 0, false⟩) ∧
        t.mmapList = Function.update s.mmapList p (s.mmapList p ++ [m]) ∧
        t.nextMapid = Function.update s.nextMapid p (s.nextMapid p + 1) ∧
        (CountsOk s → CountsOk t) ∧ t = { s with
          spt := t.spt, spte := t.spte, heap := t.heap, swapLog := t.swapLog, file := t.file,
          inode := t.inode, mmapList := t.mmapList, nextMapid := t.nextMapid } := by
  unfold mmapCreate at hm
  split at hm
  · cases hm
    exact .inl ⟨rfl, rfl, rfl, rfl, rfl, .inl rfl, id, rfl⟩
  · simp only [Option.bind_eq_bind, Option.bind_eq_some_iff] at hm
    obtain ⟨⟨o', s1⟩, hreopen, hm⟩ := hm
    have hheap : OnlyFiles s s.takeHeap.2 := rfl
    have honly := hheap.trans (onlyFiles_fileReopen hreopen)
    have hcounts : CountsOk s → CountsOk s1 := fun h => CountsOk.fileReopen (s := s.takeHeap.2) h hreopen
    rcases file_fileReopen hreopen with ⟨rfl, hsame⟩ | ⟨g, file, hfile, rfl, hfree, hnew⟩
    · cases hm
      refine .inl ⟨rfl, ?_, ?_, ?_, hsame, .inl ?_, hcounts, ?_⟩ <;> rw [honly]
      rw [hsame]
      rfl
    · dsimp only at hm
      have hfile : s.file f = some file := hfile
      have hfree : s.file g = none := hfree
      have hnext : s1.nextMapid = s.nextMapid := by rw [honly]
      have hlist : s1.mmapList = s.mmapList := by rw [honly]
      -- The state in which the loop starts has the tables of `s`.
      have hnil : ∀ m, Inserted p m 0 [] s
          { s1 with nextMapid := Function.update s1.nextMapid p (s1.nextMapid p + 1) } := by
        intro m
        refine ⟨?_, by simp, fun i _ => ?_, by simp, List.nodup_nil⟩
        · rw [honly]
          simp
        · rw [honly]
      split at hm
      · next s2 hins =>
        cases hm
        obtain ⟨added, hlen, hinserted⟩ :=
          ((hnil _).mmapInsert hv (Nat.zero_add _) hins).1 rfl
        have hrest := OnlyEntries.of_mmapInsert hins
        refine .inr ⟨{ mapid := s1.nextMapid p, file := g, addr, size }, added, file, rfl, rfl, rfl,
          ?_, hlen, ?_, hfile, hfree, ?_, ?_, ?_, fun h => ?_, ?_⟩
        · exact congrFun hnext p
        · exact { hinserted with }
        · rw [hrest]
          exact hnew
        · rw [hrest]
          simp only [hlist]
        · rw [hrest]
          simp only [hnext]
        · rw [hrest]
          exact hcounts h
        · rw [hrest, honly]
      · next s2 hins =>
        rw [Option.map_eq_some_iff] at hm
        obtain ⟨s3, hclose, heq⟩ := hm
        cases heq
        have hundone := ((hnil _).mmapInsert hv (Nat.zero_add _) hins).2 rfl
        have hrest := OnlyEntries.of_mmapInsert hins
        have hclosed := onlyFiles_fileClose hclose
        obtain ⟨hspt, hspte⟩ := hundone.eq_of_nil
        have hfiles : t.file = s.file := by
          have hback : Function.update s1.file g none = s.file := by
            rw [hnew, Function.update_idem]
            exact Function.update_eq_self_iff.mpr hfree.symm
          rw [(file_fileClose hclose).2, hrest]
          exact hback
        refine .inl ⟨rfl, ?_, ?_, ?_, hfiles, .inr ?_, fun h => ?_, ?_⟩
        · rw [hclosed]
          exact hspt
        · rw [hclosed]
          exact hspte
        · rw [hclosed, hrest]
          exact hlist
        · rw [hclosed, hrest]
          simp only [hnext]
        · refine CountsOk.fileClose ?_ hclose
          rw [hrest]
          exact hcounts h
        · unfold OnlyFiles at hclosed
          unfold OnlyEntries at hrest
          rw [hfiles] at hclosed
          rw [hspt, hspte] at hrest
          rw [hclosed, hrest, honly]

theorem Consistent.mmapMap_spec (h : Consistent .idle s) {fd : Int}
    {o : Option Nat} (hm : mmapMap p fd addr s = some (o, t)) :
    (o = none ∧ MapFailed p s t) ∨ ∃ m added, o = some m.mapid ∧ MapMade p fd addr m added s t := by
  unfold mmapMap at hm
  split at hm
  · cases hm
    exact .inl ⟨rfl, mapFailed_refl p _⟩
  · next f hf =>
    split at hm
    · next hok =>
      simp only [Option.bind_eq_bind, Option.bind_eq_some_iff] at hm
      obtain ⟨size, hsize, hm⟩ := hm
      split at hm
      · next hcond =>
        obtain ⟨hne, hfree⟩ := hcond
        have hofs : pgOfs addr = 0 := by
          simp only [mmapAddrOk, Bool.and_eq_true, beq_iff_eq] at hok
          exact hok.1.1.2
        have hrange := range_of_mmapRangeFree hofs hfree
        have hv : Vacant p addr (mmapPageCount size) s := by
          refine ⟨hrange, fun i hi => ?_, fun i hi e he n hn => ?_⟩
          · obtain ⟨e, he, -⟩ := h.entry p i hi
            rw [he]
            rfl
          · simp only [mmapRangeFree, List.all_eq_true, List.mem_range, Bool.and_eq_true,
              Option.isNone_iff_eq_none] at hfree
            have hlookup := (hfree n hn).2
            rw [sptLookup, pgRoundDown_of_pgOfs_eq_zero (hrange.pgOfs_mmapPage hn)] at hlookup
            exact sptFind_none hlookup i hi e he
        rcases mmapCreate_spec hv hm with hfail | ⟨m, added, file, ho, haddr, hsz, hid, hlen,
          hins, hfile, hnone, hnew, hlist, hnext, hcounts, hrest⟩
        · exact .inl hfail
        · refine .inr ⟨m, added, ho, ⟨f, file, hf, hfile, ?_, hnone, hnew⟩, hsz ▸ hne, haddr, hok,
            hid, hsz ▸ hv, hsz ▸ hlen, hins, hlist, hnext, hcounts, hrest⟩
          rw [fileLength, hfile, Option.map_some, Option.some.injEq] at hsize
          rw [hsz, ← hsize]
      · cases hm
        exact .inl ⟨rfl, mapFailed_refl p _⟩
    · cases hm
      exact .inl ⟨rfl, mapFailed_refl p _⟩

end Pintos.Vm

import Pintos.Vm.Coherence

/-!
# Demand paging is transparent

Runs of stores, loads, page faults, `vm_load_page`, evictions, and starts and ends of
processes, without mappings and without other files. Every load returns the byte last stored,
or the initial byte.
-/

namespace Pintos.Vm

open Pintos.Base Pintos.Threads Pintos.Userprog Pintos.Lib Pintos.Filesys

variable {f : FileAddr} {fr : Frame} {pd : PageDir} {e : SptEntry} {i : SpteAddr} {byte : UInt8}

variable {s t u : VmState} {m : UserMemory} {p : Pid}

/-- The operations that touch neither mappings nor other files. -/
def plain : Op → Bool
  | .call _ (.openFile _) => false
  | .call _ (.close _) => false
  | .call _ (.mmapMap _ _) => false
  | .call _ (.mmapUnmap _) => false
  | _ => true

/-- The state represents user memory, and no process has mappings or other files. -/
structure Represents (m : UserMemory) (s : VmState) : Prop where
  consistent : Consistent .idle s
  owned : ∃ D, SlotsOwned D s
  coherent : Coherent none m s
  fdTable : ∀ p fd, s.fdTable p fd = none
  mmapList : ∀ p, s.mmapList p = []

/-- The empty system represents memory that nobody has stored to. -/
theorem represents_init (pages slots : Nat) (mem : KPage → PageData) (device : Nat → SectorData)
    (inode : InodeNo → Inode) (heap : Nat → Option Nat) :
    Represents (fun _ _ => none) (VmState.init pages slots mem device inode heap) :=
  ⟨consistent_init .., ⟨[], slotsOwned_init ..⟩, coherent_init .., fun _ _ => rfl, fun _ => rfl⟩

private theorem Represents.pagePath (h : Represents m s) {L : List Nat}
    (hp : PagePath (.idle, s) L (.idle, t)) : Represents m t := by
  obtain ⟨D, hD⟩ := h.owned
  have hend := Base.Path.preserves
    (P := fun D a => Consistent a.1 a.2 ∧ SlotsOwned D a.2 ∧ Coherent none m a.2)
    (fun {_ _ _ _} heff ha => ⟨heff.1.consistent ha.1, heff.1.slotsOwned ha.1 ha.2.1,
      heff.1.coherent heff.2.filesKept ha.1 ha.2.1 ha.2.2⟩) hp ⟨h.consistent, hD, h.coherent⟩
  have hk : FilesKept s t := hp.filesKept
  exact ⟨hend.1, ⟨_, hend.2.1⟩, hend.2.2, fun p fd => by rw [hk.fdTable]; exact h.fdTable p fd,
    fun p => by rw [hk.mmapList]; exact h.mmapList p⟩

/-! ## Stores and loads -/

private theorem pgRoundDown_add_pgOfs (u : Addr) :
    pgRoundDown u + BitVec.ofNat 32 (pgOfs u).toNat = u := by
  rw [BitVec.ofNat_toNat, BitVec.setWidth_eq, BitVec.add_comm]
  exact pgOfs_add_pgRoundDown u

private theorem Consistent.mapped_entry (h : Consistent .idle s) {p : Pid}
    {u : Addr} {k : KPage} (hpd : s.pagedir p = some pd) (hk : pagedirGetPage pd u = some k) :
    ∃ f fr i e, s.frame f = some fr ∧ fr.kpage = k ∧ i ∈ s.spt p ∧ s.spte i = some e ∧
      e.upage = pgRoundDown u ∧ e.frame = some f := by
  obtain ⟨f, fr, i, e, -, hfr, hkp, -, hi, he, hup, hef⟩ := h.tablesAgree.present p pd u k hpd hk
  exact ⟨f, fr, i, e, hfr, hkp, hi, he, hup, hef⟩

private theorem Represents.mmuFetch_eq (h : Represents m s) {p : Pid} {u : Addr}
    (hf : mmuFetch p u s = some (byte, t)) :
    ∃ i e, sptLookup s p u = some i ∧ s.spte i = some e ∧
      byte = (m p u).getD (initialByte s e (pgOfs u).toNat) := by
  simp only [mmuFetch, Option.bind_eq_bind, Option.bind_eq_some_iff] at hf
  obtain ⟨pd, hpd, k, hk, hres⟩ := hf
  obtain ⟨f, fr, i, e, hfr, rfl, hi, he, hup, hef⟩ := h.consistent.mapped_entry hpd hk
  refine ⟨i, e, ?_, he, ?_⟩
  · rw [sptLookup, ← hup]
    exact h.consistent.sptFind_eq hi he
  · have hmem := (h.coherent.entry p i e (by simp) hi he).resident f fr hef hfr
    cases hres
    rw [hmem, wanted, hup]
    exact congrArg (fun a => (m p a).getD _) (pgRoundDown_add_pgOfs u)

private theorem EntryOk.of_eq_on {p : Pid} {b b' : Addr → Option UInt8}
    (h : EntryOk b s p e)
    (hb : ∀ j : Fin PGSIZE, b' (e.upage + BitVec.ofNat 32 j.val) =
      b (e.upage + BitVec.ofNat 32 j.val)) : EntryOk b' s p e := by
  have hw : wanted b' s e = wanted b s e := by
    funext j
    simp only [wanted, hb]
  exact ⟨h.zero, h.file, hw ▸ h.resident, hw ▸ h.swapped, fun ht hd j => by
    rw [hb]
    exact h.clean ht hd j⟩

/-- The page stored to has the new byte; its dirty bit is set, so nothing is said about a clean
page. -/
private theorem EntryOk.store {p : Pid} {u : Addr}
    {f : FrameAddr} {b : Addr → Option UInt8} {ofs : Fin PGSIZE}
    (h : EntryOk b s p e) (hk : pagedirGetPage pd u = some fr.kpage)
    (hfr : s.frame f = some fr) (hup : e.upage = pgRoundDown u) (hef : e.frame = some f)
    (hofs : ofs.val = (pgOfs u).toNat) :
    EntryOk (Function.update b u (some byte))
      ((s.setPagedir p (mmuAccess pd u true)).setMem fr.kpage
        (Function.update (s.mem fr.kpage) ofs byte)) p e := by
  refine ⟨h.zero, h.file, fun g gr hg hgr => ?_, fun _ hn => ?_, fun _ hd => ?_⟩
  · cases hef.symm.trans hg
    cases hfr.symm.trans hgr
    have hmem := h.resident f fr hef hfr
    funext j
    have haddr : e.upage + BitVec.ofNat 32 j.val = u ↔ j = ofs := by
      constructor
      · intro hj
        have hj' := congrArg pgOfs hj
        have hup' : (pgOfs (e.upage + BitVec.ofNat 32 j.val)).toNat = j.val := by
          have hlt := j.isLt
          simp only [PGSIZE] at hlt
          rw [toNat_pgOfs, BitVec.toNat_add, BitVec.toNat_ofNat, hup, toNat_pgRoundDown]
          omega
        exact Fin.ext (by rw [hofs, ← hup', hj'])
      · rintro rfl
        rw [hofs, hup]
        exact pgRoundDown_add_pgOfs u
    by_cases hj : j = ofs
    · subst hj
      simp [VmState.setMem, wanted, haddr.mpr rfl]
    · have hne : e.upage + BitVec.ofNat 32 j.val ≠ u := fun heq => hj (haddr.mp heq)
      simp only [VmState.setMem, Function.update_self, wanted, Function.update_of_ne hne,
        Function.update_of_ne hj]
      exact congrFun hmem j
  · rw [hef] at hn
    cases hn
  · obtain ⟨pd', hpd', hclean⟩ := hd (by simp [hef])
    have heq : mmuAccess pd u true = pd' := by simpa [VmState.setMem, VmState.setPagedir] using hpd'
    rw [← heq, pagedirIsDirty_mmuAccess _ _ _ _ (by simp [hk]), hup] at hclean
    simp [pgRoundDown_pgRoundDown] at hclean

private theorem Coherent.store (h : Coherent none m s) (hc : Consistent .idle s) {p : Pid}
    {u : Addr} {f : FrameAddr} {ofs : Fin PGSIZE} (hpd : s.pagedir p = some pd)
    (hk : pagedirGetPage pd u = some fr.kpage) (hfr : s.frame f = some fr) (hi : i ∈ s.spt p)
    (he : s.spte i = some e) (hup : e.upage = pgRoundDown u) (hef : e.frame = some f)
    (hofs : ofs.val = (pgOfs u).toNat) :
    Coherent none (record m (.call p (.store u byte)))
      ((s.setPagedir p (mmuAccess pd u true)).setMem fr.kpage
        (Function.update (s.mem fr.kpage) ofs byte)) := by
  have hlive : ∀ q, ((s.setPagedir p (mmuAccess pd u true)).pagedir q).isSome =
      (s.pagedir q).isSome := by
    intro q
    by_cases hqp : q = p
    · simp [VmState.setPagedir, hqp, hpd]
    · simp [VmState.setPagedir, hqp]
  constructor
  · intro q j ej _ hj hej
    by_cases hji : j = i
    · subst hji
      cases hc.spt_disjoint q p j hj hi
      cases he.symm.trans hej
      rw [record, Function.update_self]
      exact (h.entry p j e (by simp) hi he).store hk hfr hup hef hofs
    · have hok := h.entry q j ej (by simp) hj hej
      have hpage : q = p → pgRoundDown ej.upage ≠ pgRoundDown u := by
        rintro rfl heq
        rw [hc.pgRoundDown_upage hj hej, ← hup] at heq
        exact hji (hc.upage_inj q j i ej e hj hi hej he heq)
      have hun : Unmoved s ((s.setPagedir p (mmuAccess pd u true)).setMem fr.kpage
          (Function.update (s.mem fr.kpage) ofs byte)) q ej := by
        refine ⟨fun g gr hg hgr => ⟨gr, hgr, Function.update_of_ne (fun hkp => ?_) _ _⟩,
          fun _ _ => rfl, fun _ pd' hq => dirty_update hpd rfl (fun hqp => ?_) hq⟩
        · cases hc.kpage_inj g f gr fr hgr hfr hkp
          exact hji (hc.frame_inj hj hej hg hi he hef)
        · rw [pagedirIsDirty_mmuAccess _ _ _ _ (by simp [hk])]
          simp [hpage hqp]
      have hsrc := FilesKept.source (s := s) (t := (s.setPagedir p (mmuAccess pd u true)).setMem
        fr.kpage (Function.update (s.mem fr.kpage) ofs byte)) (.of_eq rfl rfl rfl rfl rfl) q
      refine (hok.transfer (h.opened q (by simp) (hc.live q j hj)) hsrc hun).of_eq_on fun n => ?_
      by_cases hqp : q = p
      · subst hqp
        rw [record, Function.update_self, Function.update_of_ne]
        intro heq
        refine hpage rfl ?_
        rw [← heq, hc.pgRoundDown_upage hj hej]
        obtain ⟨_, he', hofs', -⟩ := hc.entry q j hj
        cases hej.symm.trans he'
        exact (pgRoundDown_add hofs' n).symm
      · rw [record, Function.update_of_ne hqp]
  · intro q _ hq
    exact h.opened q (by simp) (hlive q ▸ hq)
  · intro q r g hq hr
    exact h.apart q r g (hlive q ▸ hq) (hlive r ▸ hr)
  · intro q a _ hq ha
    by_cases hqa : q = p ∧ a = u
    · obtain ⟨rfl, rfl⟩ := hqa
      exact ⟨i, e, hi, he, hup⟩
    · refine h.stored q a (by simp) (hlive q ▸ hq) fun hnone => ha ?_
      by_cases hqp : q = p
      · subst hqp
        have hau : a ≠ u := fun hau => hqa ⟨rfl, hau⟩
        simpa [record, hau] using hnone
      · simpa [record, hqp] using hnone

/-- A store is one effect, and user memory has the byte afterwards. -/
theorem Represents.mmuStore (h : Represents m s) {p : Pid} {u : Addr}
    (hs : mmuStore p u byte s = some t) : Represents (record m (.call p (.store u byte))) t := by
  have hc := h.consistent
  simp only [Vm.mmuStore, Option.bind_eq_bind, Option.bind_eq_some_iff] at hs
  obtain ⟨pd, hpd, k, hk, hs⟩ := hs
  split at hs
  · next hw =>
    cases hs
    obtain ⟨f, fr, i, e, hfr, rfl, hi, he, hup, hef⟩ := hc.mapped_entry hpd hk
    have heff := Effect.store (d := Function.update (s.mem fr.kpage) ⟨(pgOfs u).toNat, by
      rw [toNat_pgOfs]; exact Nat.mod_lt _ (by decide)⟩ byte) hpd hk hw (.refl _)
    obtain ⟨D, hD⟩ := h.owned
    exact ⟨heff.consistent hc, ⟨D, heff.slotsOwned hc hD⟩,
      h.coherent.store hc hpd hk hfr hi he hup hef rfl, h.fdTable, h.mmapList⟩
  · cases hs

/-! ## Starting a process -/

/-- A new process has stored nothing, and its executable is one that no other process has. -/
private theorem Coherent.started (h : Coherent none m s) (hc : Consistent .idle s) {p : Pid}
    {file : FileAddr} (hp : s.pagedir p = none) (hs : Started p file s t) :
    Coherent none (Function.update m p fun _ => none) t := by
  have hmem := hs.memory
  have hspt : ∀ q i, i ∈ t.spt q → q ≠ p ∧ i ∈ s.spt q := by
    intro q i hi
    rw [hmem.spt] at hi
    refine ⟨?_, hi⟩
    rintro rfl
    rw [hc.spt_eq_nil hp] at hi
    cases hi
  have hpd : ∀ q, q ≠ p → t.pagedir q = s.pagedir q := by
    intro q hqp
    rw [hmem.pagedir]
    exact Function.update_of_ne hqp _ _
  have hexec : ∀ q, q ≠ p → t.executable q = s.executable q := by
    intro q hqp
    rw [hs.executable]
    exact Function.update_of_ne hqp _ _
  -- The new executable was not open before, so it is not that of a live process.
  have hnew : ∀ q, q ≠ p → (t.pagedir q).isSome → t.executable q ≠ some file := by
    intro q hqp hlive heq
    rw [hexec q hqp] at heq
    obtain ⟨f, hf, hopen⟩ := h.opened q (by simp) (hpd q hqp ▸ hlive)
    cases heq.symm.trans hf
    simp [hs.fresh] at hopen
  constructor
  · intro q i e _ hi he
    obtain ⟨hqp, hi'⟩ := hspt q i hi
    rw [hmem.spte] at he
    rw [Function.update_of_ne hqp]
    refine (h.entry q i e (by simp) hi' he).transfer (h.opened q (by simp) (hc.live q i hi'))
      ⟨hexec q hqp, fun f file _ => hs.handle f file, hs.data⟩ ⟨fun f fr _ hfr => ⟨fr, ?_, ?_⟩,
        fun _ _ => ?_, fun _ pd' hq => ⟨pd', hpd q hqp ▸ hq, rfl⟩⟩
    · rw [hmem.frame] at hfr
      exact hfr
    · rw [hmem.mem]
    · rw [hmem.swapDevice]
  · intro q _ hlive
    by_cases hqp : q = p
    · subst hqp
      exact ⟨file, by simp [hs.executable], (hs.table file).mpr (.inr rfl)⟩
    · obtain ⟨f, hf, hopen⟩ := h.opened q (by simp) (hpd q hqp ▸ hlive)
      obtain ⟨handle, hhandle⟩ := Option.isSome_iff_exists.mp hopen
      obtain ⟨handle', hhandle', -⟩ := hs.handle f handle hhandle
      exact ⟨f, (hexec q hqp).trans hf, by simp [hhandle']⟩
  · intro q r f hq hr hqf hrf
    have hself : t.executable p = some file := by simp [hs.executable]
    by_cases hqp : q = p <;> by_cases hrp : r = p
    · exact hqp.trans hrp.symm
    · subst hqp
      cases hself.symm.trans hqf
      exact absurd hrf (hnew r hrp hr)
    · subst hrp
      cases hself.symm.trans hrf
      exact absurd hqf (hnew q hqp hq)
    · exact h.apart q r f (hpd q hqp ▸ hq) (hpd r hrp ▸ hr) (hexec q hqp ▸ hqf) (hexec r hrp ▸ hrf)
  · intro q u _ hlive hu
    have hqp : q ≠ p := by
      rintro rfl
      simp at hu
    rw [Function.update_of_ne hqp] at hu
    obtain ⟨i, e, hi, he, hup⟩ := h.stored q u (by simp) (hpd q hqp ▸ hlive) hu
    exact ⟨i, e, hmem.spt ▸ hi, hmem.spte ▸ he, hup⟩

private theorem Represents.execProcess (h : Represents m s) {p : Pid} {inode : Option InodeNo}
    {r : Replacement} (hx : execProcess p inode r s = some t) :
    Represents (record m (.exec p inode r)) t := by
  obtain ⟨hp, file, u, L, hs, hpath, -⟩ := h.consistent.execProcess_path hx
  obtain ⟨D, hD⟩ := h.owned
  have heff := Effect.create hp hs.memory
  refine Represents.pagePath (s := u) ⟨heff.consistent h.consistent,
    ⟨D, heff.slotsOwned h.consistent hD⟩, h.coherent.started h.consistent hp hs, ?_, ?_⟩ hpath
  · intro q fd
    rw [hs.fdTable]
    by_cases hqp : q = p
    · simp [hqp]
    · simp [hqp, h.fdTable]
  · intro q
    rw [hs.mmapList]
    by_cases hqp : q = p
    · simp [hqp]
    · simp [hqp, h.mmapList]

/-! ## The end of a process -/

/-- Of the files, only handle `f` changes. -/
private structure OnlyHandle (f : FileAddr) (s t : VmState) : Prop where
  other : ∀ g, g ≠ f → t.file g = s.file g
  data : ∀ n, (t.inode n).data = (s.inode n).data
  executable : t.executable = s.executable
  fdTable : t.fdTable = s.fdTable
  mmapList : t.mmapList = s.mmapList

private theorem onlyHandle_allowWrite (h : fileAllowWrite f s = some t) :
    OnlyHandle f s t := by
  simp only [fileAllowWrite] at h
  split at h
  · cases h
  · split at h
    · cases h
      exact ⟨fun _ _ => rfl, fun _ => rfl, rfl, rfl, rfl⟩
    · split at h
      · cases h
        refine ⟨fun g hg => by simp [setInode, setFile, hg], fun n => ?_, rfl, rfl, rfl⟩
        exact data_setInode (by rfl) n
      · cases h

private theorem onlyHandle_close (h : fileClose f s = some t) :
    OnlyHandle f s t := by
  unfold fileClose at h
  split at h
  · next file s' hfile hallow =>
    have ha := onlyHandle_allowWrite hallow
    cases h
    refine ⟨fun g hg => ?_, fun n => ?_, ha.executable, ha.fdTable, ha.mmapList⟩
    · simpa [inodeClose, setInode, hg] using ha.other g hg
    · exact (data_setInode (by rfl) n).trans (ha.data n)
  · cases h

private theorem onlyHandle_closeExecutable {p : Pid} (hf : s.executable p = some f)
    (h : closeExecutable p s = some t) : OnlyHandle f s t := by
  simp only [closeExecutable, hf, Option.bind_eq_some_iff] at h
  obtain ⟨s1, hallow, hclose⟩ := h
  have ha := onlyHandle_allowWrite hallow
  have hcl := onlyHandle_close hclose
  exact ⟨fun g hg => (hcl.other g hg).trans (ha.other g hg),
    fun n => (hcl.data n).trans (ha.data n), hcl.executable.trans ha.executable,
    hcl.fdTable.trans ha.fdTable, hcl.mmapList.trans ha.mmapList⟩

private theorem Coherent.closed (h : Coherent none m s) (hc : Consistent .idle s) {p : Pid} (hp : (s.pagedir p).isSome) (hf : s.executable p = some f)
    (hm : SameMemory s t) (ho : OnlyHandle f s t) : Coherent (some p) m t := by
  have hother : ∀ q g, q ≠ p → (s.pagedir q).isSome → s.executable q = some g → g ≠ f := by
    rintro q g hqp hq hqg rfl
    exact hqp (h.apart q p g hq hp hqg hf)
  constructor
  · intro q i e hqx hi he
    have hqp : q ≠ p := fun heq => hqx (heq ▸ rfl)
    rw [hm.spt] at hi
    rw [hm.spte] at he
    have hq := hc.live q i hi
    refine (h.entry q i e (by simp) hi he).transfer (h.opened q (by simp) hq)
      ⟨by rw [ho.executable], fun g file hqg hg => ⟨file, ?_, rfl⟩, ho.data⟩
      ⟨fun g gr _ hgr => ⟨gr, hm.frame ▸ hgr, by rw [hm.mem]⟩, fun _ _ => by rw [hm.swapDevice],
        fun _ pd' hpd' => ⟨pd', hm.pagedir ▸ hpd', rfl⟩⟩
    rw [ho.other g (hother q g hqp hq hqg)]
    exact hg
  · intro q hqx hq
    have hqp : q ≠ p := fun heq => hqx (heq ▸ rfl)
    rw [hm.pagedir] at hq
    obtain ⟨g, hqg, hopen⟩ := h.opened q (by simp) hq
    refine ⟨g, ho.executable ▸ hqg, ?_⟩
    rw [ho.other g (hother q g hqp hq hqg)]
    exact hopen
  · rw [hm.pagedir, ho.executable]
    exact h.apart
  · intro q u hqx hq hu
    obtain ⟨i, e, hi, he, hup⟩ := h.stored q u (by simp) (hm.pagedir ▸ hq) hu
    exact ⟨i, e, hm.spt ▸ hi, hm.spte ▸ he, hup⟩

/-- What happens to the entries, the directory and the frames of `p` only does not concern the
other processes. -/
private theorem Coherent.of_others (h : Coherent (some p) m s) (hc : Consistent .idle s)
    (hk : FilesKept s t) {l : List SpteAddr} (hi : i ∈ s.spt p)
    (hspt : t.spt = Function.update s.spt p l) (hspte : t.spte = Function.update s.spte i none)
    (hpd : ∀ q, q ≠ p → t.pagedir q = s.pagedir q)
    (hlive : (t.pagedir p).isSome = (s.pagedir p).isSome) (hdev : t.swapDevice = s.swapDevice)
    (hmem : ∀ g gr, t.frame g = some gr →
      s.frame g = some gr ∧ t.mem gr.kpage = s.mem gr.kpage) : Coherent (some p) m t := by
  have hlive' : ∀ q, (t.pagedir q).isSome = (s.pagedir q).isSome := by
    intro q
    by_cases hqp : q = p
    · rw [hqp]
      exact hlive
    · rw [hpd q hqp]
  constructor
  · intro q j e hqx hj he
    have hqp : q ≠ p := fun heq => hqx (heq ▸ rfl)
    rw [hspt, Function.update_of_ne hqp] at hj
    have hji : j ≠ i := by
      rintro rfl
      exact hqp (hc.spt_disjoint q p j hj hi)
    rw [hspte, Function.update_of_ne hji] at he
    exact (h.entry q j e hqx hj he).transfer (h.opened q hqx (hc.live q j hj)) (hk.source q)
      ⟨fun g gr _ hgr => ⟨gr, (hmem g gr hgr).1, (hmem g gr hgr).2⟩, fun _ _ => by rw [hdev],
        fun _ pd' hpd' => ⟨pd', hpd q hqp ▸ hpd', rfl⟩⟩
  · intro q hqx hq
    obtain ⟨f, hf, hopen⟩ := h.opened q hqx (hlive' q ▸ hq)
    obtain ⟨file, hfile⟩ := Option.isSome_iff_exists.mp hopen
    obtain ⟨file', hfile', -⟩ := hk.handle f file hfile
    exact ⟨f, hk.executable ▸ hf, by simp [hfile']⟩
  · intro q r f hq hr
    rw [hk.executable]
    exact h.apart q r f (hlive' q ▸ hq) (hlive' r ▸ hr)
  · intro q u hqx hq hu
    have hqp : q ≠ p := fun heq => hqx (heq ▸ rfl)
    obtain ⟨j, e, hj, he, hup⟩ := h.stored q u hqx (hlive' q ▸ hq) hu
    have hji : j ≠ i := by
      rintro rfl
      exact hqp (hc.spt_disjoint q p j hj hi)
    exact ⟨j, e, by simpa [hspt, hqp] using hj, by simpa [hspte, hji] using he, hup⟩

private theorem update_pagedir_of_ne (q : Pid) (hq : q ≠ p)
    (hpd : t.pagedir = Function.update s.pagedir p (some pd)) : t.pagedir q = s.pagedir q := by
  rw [hpd, Function.update_of_ne hq]

-- The frame of the entry goes, and with it the bytes of its page only.
private theorem frame_of_disposed (hc : Consistent .idle s) {v g : FrameAddr} {gr : Frame}
    {d : PageData} (hv : s.frame v = some fr) (hframe : t.frame = Function.update s.frame v none)
    (hmem : t.mem = Function.update s.mem fr.kpage d) (hgr : t.frame g = some gr) :
    s.frame g = some gr ∧ t.mem gr.kpage = s.mem gr.kpage := by
  rw [hframe] at hgr
  have hgv : g ≠ v := by
    rintro rfl
    simp at hgr
  rw [Function.update_of_ne hgv] at hgr
  refine ⟨hgr, ?_⟩
  rw [hmem, Function.update_of_ne]
  exact fun hkp => hgv (hc.kpage_inj g v gr fr hgr hv hkp)

/-- The end of an entry of `p` does not concern the other processes. -/
private theorem EndEffect.coherent {L : List Nat}
    (heff : EndEffect p i e s L t) (hi : i ∈ s.spt p) (hk : FilesKept s t)
    (hc : Consistent .idle s) (h : Coherent (some p) m s) : Coherent (some p) m t := by
  cases heff with
  | remove _ _ hm | removeFree _ _ hm =>
    exact h.of_others hc hk hi hm.spt hm.spte (fun q _ => by rw [hm.pagedir]; rfl)
      (by rw [hm.pagedir]; rfl) hm.swapDevice
      fun g gr hgr => ⟨hm.frame ▸ hgr, by rw [hm.mem]; rfl⟩
  | dispose hv _ hpd _ hm =>
    exact h.of_others hc hk hi hm.spt (hm.spte.trans (Function.update_idem ..))
      (fun q hq => update_pagedir_of_ne q hq hm.pagedir)
      (by rw [hm.pagedir]; simp [VmState.entryFreed, VmState.poolFreed, VmState.unmapped, hpd])
      hm.swapDevice fun g gr hgr => frame_of_disposed hc hv hm.frame hm.mem hgr
  | disposeFree hv _ hpd _ _ hm =>
    exact h.of_others hc hk hi hm.spt (hm.spte.trans (Function.update_idem ..))
      (fun q hq => update_pagedir_of_ne q hq hm.pagedir)
      (by rw [hm.pagedir]; simp [VmState.slotFreed, VmState.entryFreed, VmState.poolFreed,
        VmState.unmapped, hpd])
      hm.swapDevice fun g gr hgr => frame_of_disposed hc hv hm.frame hm.mem hgr

private theorem Coherent.destroyed (h : Coherent (some p) m s) (hnil : s.spt p = []) :
    Coherent none m { s with pagedir := Function.update s.pagedir p none } := by
  have hlive : ∀ q, (Function.update s.pagedir p none q).isSome →
      q ≠ p ∧ (s.pagedir q).isSome := by
    intro q hq
    have hqp : q ≠ p := by
      rintro rfl
      simp at hq
    exact ⟨hqp, by simpa [hqp] using hq⟩
  have hleft : ∀ q, q ≠ p → some p ≠ some q := fun q hqp heq => hqp (Option.some.inj heq).symm
  constructor
  · intro q i e _ hi he
    have hqp : q ≠ p := by
      rintro rfl
      rw [hnil] at hi
      cases hi
    have hok := h.entry q i e (hleft q hqp) hi he
    refine ⟨hok.zero, hok.file, hok.resident, hok.swapped, fun ht hd => hok.clean ht fun hf => ?_⟩
    obtain ⟨pd, hpd, hclean⟩ := hd hf
    exact ⟨pd, by simpa [hqp] using hpd, hclean⟩
  · intro q _ hq
    exact h.opened q (hleft q (hlive q hq).1) (hlive q hq).2
  · intro q r f hq hr
    exact h.apart q r f (hlive q hq).2 (hlive r hr).2
  · intro q u _ hq
    exact h.stored q u (hleft q (hlive q hq).1) (hlive q hq).2

private theorem closeFds_eq {l : List Nat} (hfd : ∀ fd, s.fdTable p fd = none)
    (h : run (closeFd p) s l = some t) : t = s := by
  induction l with
  | nil =>
    cases h
    rfl
  | cons fd l ih =>
    rw [run_cons, closeFd, hfd fd] at h
    exact ih h

private theorem freePagedir_nil (hpd : s.pagedir p = some pd)
    (hnil : presentPages pd = []) (h : freePagedir p s = some t) :
    t = { s with pagedir := Function.update s.pagedir p none } := by
  simp only [freePagedir, hpd, pagedirDestroy, hnil, run_nil, Option.some.injEq] at h
  exact h.symm

private theorem Represents.exitProcess (h : Represents m s) (hp : (s.pagedir p).isSome)
    (hx : exitProcess p s = some t) : Represents m t := by
  have hrel := h.consistent.exitProcess_released hx
  have hct := hrel.1.consistent h.consistent
  obtain ⟨L, hpath, -⟩ := hrel.1.path
  obtain ⟨D, hD⟩ := h.owned
  rw [Userprog.exitProcess, Option.bind_eq_some_iff] at hx
  obtain ⟨s3, hexit, hfree⟩ := hx
  have hnil3 := (h.consistent.processExit_released hexit).2
  have hc3 := (h.consistent.processExit_released hexit).1.consistent h.consistent
  simp only [processExit, h.mmapList, List.length_nil, munmapAll, List.isEmpty_nil, if_true,
    Option.bind_eq_bind, Option.bind_some, Option.bind_eq_some_iff] at hexit
  obtain ⟨s1, hclose, s2, hfds, hdestroy⟩ := hexit
  obtain ⟨f, hf, -⟩ := h.coherent.opened p (by simp) hp
  have hm1 := sameMemory_closeExecutable hclose
  have ho := onlyHandle_closeExecutable hf hclose
  cases closeFds_eq (fun fd => by rw [ho.fdTable]; exact h.fdTable p fd) hfds
  obtain ⟨⟨L', hends⟩, -⟩ := hashDestroy_path hdestroy
  -- The ends of the entries of `p`, one by one.
  have hend : Consistent .idle s3 ∧ Coherent (some p) m s3 := by
    refine Base.Path.preserves (P := fun _ a => Consistent .idle a ∧ Coherent (some p) m a) ?_
      (D := []) hends ⟨h.consistent.congr hm1, h.coherent.closed h.consistent hp hf hm1 ho⟩
    rintro D a b D' ⟨i, e, hi, he, heff, hk⟩ ha
    exact ⟨heff.consistent hi he ha.1, heff.coherent hi hk ha.1 ha.2⟩
  have hk : FilesKept s1 s3 := by
    refine Base.Path.relates FilesKept.refl FilesKept.trans ?_ hends
    rintro a l b ⟨-, -, -, -, -, hk⟩
    exact hk
  have hfd : ∀ q fd, s3.fdTable q fd = none := by
    intro q fd
    rw [hk.fdTable, ho.fdTable]
    exact h.fdTable q fd
  have hml : ∀ q, s3.mmapList q = [] := by
    intro q
    rw [hk.mmapList, ho.mmapList]
    exact h.mmapList q
  cases hpd : s3.pagedir p with
  | none =>
    simp only [freePagedir, hpd, Option.some.injEq] at hfree
    subst hfree
    have hsame : Function.update s3.pagedir p none = s3.pagedir :=
      Function.update_eq_self_iff.mpr hpd.symm
    have hcoh := hend.2.destroyed hnil3
    rw [hsame] at hcoh
    exact ⟨hct, ⟨_, hpath.slotsOwned h.consistent hD⟩, hcoh, hfd, hml⟩
  | some pd =>
    cases freePagedir_nil hpd (hc3.presentPages_eq_nil hnil3 hpd) hfree
    exact ⟨hct, ⟨_, hpath.slotsOwned h.consistent hD⟩, hend.2.destroyed hnil3, hfd, hml⟩

/-! ## Runs -/

private theorem Represents.faultStep (h : Represents m s) {flt : Fault} {write : Bool}
    {r : Replacement} (hf : faultStep p flt write r s = some t) : Represents m t := by
  simp only [Vm.faultStep, Option.bind_eq_bind, Option.bind_eq_some_iff] at hf
  obtain ⟨pd, hpd, hf⟩ := hf
  split at hf
  · next hm =>
    rw [Option.bind_eq_some_iff] at hf
    obtain ⟨⟨res, u⟩, hfault, hres⟩ := hf
    obtain ⟨L, hpath, -⟩ := h.consistent.pageFault_path hpd hm hfault
    cases res with
    | resume =>
      cases hres
      exact h.pagePath hpath
    | exit =>
      refine (h.pagePath hpath).exitProcess ?_ hres
      rw [hpath.extends.pagedir, hpd]
      rfl
  · cases hf

/-- Every plain operation does to user memory what `record` says. -/
theorem Represents.step (h : Represents m s) {op : Op} (hop : plain op = true)
    (hs : step s op = some t) : Represents (record m op) t := by
  cases op with
  | exec p inode r => exact h.execProcess hs
  | call p c =>
    simp only [Vm.step] at hs
    split at hs
    · next hp =>
      cases c with
      | enter esp =>
        cases hs
        refine h.pagePath (L := []) (PageEffect.path (.quiet ?_) (.of_eq rfl rfl rfl rfl rfl rfl))
        exact ⟨rfl, rfl, rfl, rfl, rfl, rfl, rfl, rfl, rfl, rfl⟩
      | store uaddr byte => exact h.mmuStore hs
      | fetch uaddr =>
        obtain ⟨⟨byte, _⟩, hfetch, rfl⟩ := Option.map_eq_some_iff.mp hs
        exact h.pagePath (mmuFetch_path hfetch)
      | fault flt write r => exact h.faultStep hs
      | vmLoadPage upage pin r =>
        obtain ⟨⟨ok, _⟩, hload, rfl⟩ := Option.map_eq_some_iff.mp hs
        obtain ⟨L, hpath, -⟩ := h.consistent.vmLoadPage_path hp hload
        exact h.pagePath hpath
      | vmUnpinRange addr size =>
        cases hs
        exact h.pagePath (vmUnpinRange_path .idle p addr size s)
      | exit => exact h.exitProcess hp hs
      | openFile | close | mmapMap | mmapUnmap => cases hop
    · cases hs

/-- After every run of plain operations the state represents what was stored. -/
theorem represents_run {pages slots : Nat} {mem : KPage → PageData} {device : Nat → SectorData}
    {inode : InodeNo → Inode} {heap : Nat → Option Nat} {ops : List Op}
    (hops : ∀ op ∈ ops, plain op = true)
    (hr : run step (VmState.init pages slots mem device inode heap) ops = some s) :
    Represents (ops.foldl record fun _ _ => none) s :=
  run_simulates_along (C := fun _ op => plain op = true) (R := fun s m => Represents m s)
    (fun _ _ _ _ h hop hs => h.step hop hs) (represents_init pages slots mem device inode heap)
    (along_of_forall step _ hops) hr

/-- Demand paging is transparent: after any run of plain operations, a load from a mapped page
returns the byte that its process last stored there, or the initial byte of the page's entry if
there was no store. -/
theorem fetch_returns_last_stored {pages slots : Nat} {mem : KPage → PageData}
    {device : Nat → SectorData} {inode : InodeNo → Inode} {heap : Nat → Option Nat}
    {ops : List Op} (hops : ∀ op ∈ ops, plain op = true)
    (hr : run step (VmState.init pages slots mem device inode heap) ops = some s)
    {u : Addr} {byte : UInt8} (hf : mmuFetch p u s = some (byte, t)) :
    ∃ i e, sptLookup s p u = some i ∧ s.spte i = some e ∧
      byte = (ops.foldl record (fun _ _ => none) p u).getD (initialByte s e (pgOfs u).toNat) := by
  exact (represents_run hops hr).mmuFetch_eq hf

/-- A byte stored in a page that has since been to swap and back. -/
theorem fetch_returns_last_stored_afterSwap :
    ∃ s byte t, run step (smallMachine 1 4)
        [.exec 0 (some 0) .clock, .call 0 (.store 0xbffff004 7), .call 0 (.enter 0xbfffe000),
          .call 0 (.vmLoadPage 0xbfffe000 false .clock),
          .call 0 (.vmLoadPage 0xbffff000 false .clock)] = some s ∧
      mmuFetch 0 0xbffff004 s = some (byte, t) ∧ byte = 7 := by
  obtain ⟨⟨byte, t⟩, hrun⟩ := Option.isSome_iff_exists.mp
    (show ((run step (smallMachine 1 4)
        [.exec 0 (some 0) .clock, .call 0 (.store 0xbffff004 7), .call 0 (.enter 0xbfffe000),
          .call 0 (.vmLoadPage 0xbfffe000 false .clock),
          .call 0 (.vmLoadPage 0xbffff000 false .clock)]).bind (mmuFetch 0 0xbffff004)).isSome =
      true by decide +kernel)
  obtain ⟨s, hs, hf⟩ := Option.bind_eq_some_iff.mp hrun
  refine ⟨s, byte, t, hs, hf, ?_⟩
  obtain ⟨i, e, -, -, hbyte⟩ := fetch_returns_last_stored (by decide) hs hf
  exact hbyte

end Pintos.Vm

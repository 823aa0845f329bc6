import Pintos.Vm.SwapOwnership

/-!
# Where the bytes of a page are

The abstract view of user memory is a byte for each address that a process has stored to, and
the initial byte elsewhere. Where the current bytes of a page are, in a frame, in a swap slot,
in the executable or nowhere, is encoded in `type`, `frame`, `swap_slot` and the dirty bit. The
simulation relation spells the encoding out, and no page effect breaks it.
-/

namespace Pintos.Vm

open Pintos.Base Pintos.Threads Pintos.Userprog Pintos.Lib Pintos.Filesys

variable {b : Addr → Option UInt8} {fr : Frame} {f : FrameAddr} {d : PageData} {pd pd' : PageDir}
  {p : Pid} {e : SptEntry} {i : SpteAddr}

variable {fl : Flight} {s t : VmState}

/-- The bytes that processes have stored since they were started. -/
abbrev UserMemory := Pid → Addr → Option UInt8

/-- What an operation means for user memory: a store stores, a new process has stored nothing,
and everything else is invisible. -/
def record (m : UserMemory) : Op → UserMemory
  | .exec p _ _ => Function.update m p fun _ => none
  | .call p (.store uaddr byte) => Function.update m p (Function.update (m p) uaddr (some byte))
  | _ => m

/-- Byte `j` of an entry's page before any store: that of the file, or zero. -/
def initialByte (s : VmState) (e : SptEntry) (j : Nat) : UInt8 :=
  if j < e.readBytes then
    (e.file.bind s.file).elim 0 fun file => (s.inode file.inode).data (e.fileOffset + j)
  else 0

/-- The bytes that an entry's page has to have if `b` are the bytes stored. -/
def wanted (b : Addr → Option UInt8) (s : VmState) (e : SptEntry) : PageData := fun j =>
  (b (e.upage + BitVec.ofNat 32 j.val)).getD (initialByte s e j.val)

/-- Where the bytes of the page of an entry of `p` are, if `p` has stored `b`. -/
structure EntryOk (b : Addr → Option UInt8) (s : VmState) (p : Pid) (e : SptEntry) : Prop where
  zero : e.type = .zero → e.readBytes = 0
  file : e.type = .file ∨ e.readBytes ≠ 0 → ∃ f, e.file = some f ∧ s.executable p = some f
  resident : ∀ f fr, e.frame = some f → s.frame f = some fr → s.mem fr.kpage = wanted b s e
  swapped : e.type = .swap → e.frame = none → readSectors s.swapDevice e.swapSlot = wanted b s e
  /-- A page that never was in swap and is not dirty has not been stored to. -/
  clean : e.type ≠ .swap →
    (e.frame ≠ none → ∃ pd, s.pagedir p = some pd ∧ pagedirIsDirty pd e.upage = false) →
    ∀ j : Fin PGSIZE, b (e.upage + BitVec.ofNat 32 j.val) = none

/-- The state represents the user memory `m`; process `x`, which is being ended, is left out. -/
structure Coherent (x : Option Pid) (m : UserMemory) (s : VmState) : Prop where
  entry : ∀ p i e, x ≠ some p → i ∈ s.spt p → s.spte i = some e → EntryOk (m p) s p e
  opened : ∀ p, x ≠ some p → (s.pagedir p).isSome →
    ∃ f, s.executable p = some f ∧ (s.file f).isSome
  apart : ∀ p q f, (s.pagedir p).isSome → (s.pagedir q).isSome → s.executable p = some f →
    s.executable q = some f → p = q
  stored : ∀ p u, x ≠ some p → (s.pagedir p).isSome → m p u ≠ none →
    ∃ i e, i ∈ s.spt p ∧ s.spte i = some e ∧ e.upage = pgRoundDown u

variable {x : Option Pid} {m : UserMemory}

theorem coherent_init (pages slots : Nat) (mem : KPage → PageData) (device : Nat → SectorData)
    (inode : InodeNo → Inode) (heap : Nat → Option Nat) :
    Coherent none (fun _ _ => none) (VmState.init pages slots mem device inode heap) := by
  constructor <;> simp [VmState.init]

/-- The executable of `p` stays as it is. -/
structure SourceKept (s t : VmState) (p : Pid) : Prop where
  executable : t.executable p = s.executable p
  handle : ∀ f file, s.executable p = some f → s.file f = some file →
    ∃ file', t.file f = some file' ∧ file'.inode = file.inode
  data : ∀ n, (t.inode n).data = (s.inode n).data

theorem FilesKept.source (h : FilesKept s t) (p : Pid) : SourceKept s t p :=
  ⟨congrFun h.executable p, fun f file _ => h.handle f file, h.data⟩

/-- Initial bytes do not change as long as the executable stays open. -/
private theorem wanted_congr
    (hk : SourceKept s t p) (hx : ∃ f, s.executable p = some f ∧ (s.file f).isSome)
    (he : e.readBytes ≠ 0 → ∃ f, e.file = some f ∧ s.executable p = some f) :
    wanted b t e = wanted b s e := by
  funext j
  have hbyte : initialByte t e j.val = initialByte s e j.val := by
    unfold initialByte
    split
    · next hj =>
      obtain ⟨f, hf, hpf⟩ := he (by omega)
      obtain ⟨f', hpf', hopen⟩ := hx
      cases hpf.symm.trans hpf'
      obtain ⟨file, hfile⟩ := Option.isSome_iff_exists.mp hopen
      obtain ⟨file', hfile', hinode⟩ := hk.handle f file hpf hfile
      simp [hf, hfile, hfile', hinode, hk.data]
    · rfl
  rw [wanted, wanted, hbyte]

/-- The bytes of an entry's page are where they were. -/
structure Unmoved (s t : VmState) (p : Pid) (e : SptEntry) : Prop where
  resident : ∀ f fr, e.frame = some f → t.frame f = some fr →
    ∃ fr', s.frame f = some fr' ∧ t.mem fr.kpage = s.mem fr'.kpage
  swapped : e.type = .swap → e.frame = none →
    readSectors t.swapDevice e.swapSlot = readSectors s.swapDevice e.swapSlot
  dirty : e.frame ≠ none → ∀ pd', t.pagedir p = some pd' →
    ∃ pd, s.pagedir p = some pd ∧ pagedirIsDirty pd' e.upage = pagedirIsDirty pd e.upage

private theorem EntryOk.wanted_congr
    (h : EntryOk b s p e) (hx : ∃ f, s.executable p = some f ∧ (s.file f).isSome)
    (hk : SourceKept s t p) : wanted b t e = wanted b s e :=
  Vm.wanted_congr hk hx fun hr => h.file (.inr hr)

theorem EntryOk.transfer
    (h : EntryOk b s p e) (hx : ∃ f, s.executable p = some f ∧ (s.file f).isSome)
    (hk : SourceKept s t p) (hu : Unmoved s t p e) : EntryOk b t p e := by
  have hw := h.wanted_congr hx hk
  refine ⟨h.zero, ?_, fun f fr hf hfr => ?_, fun ht hf => ?_, fun ht hd => ?_⟩
  · rw [hk.executable]
    exact h.file
  · obtain ⟨fr', hfr', hmem⟩ := hu.resident f fr hf hfr
    rw [hw, hmem]
    exact h.resident f fr' hf hfr'
  · rw [hw, hu.swapped ht hf]
    exact h.swapped ht hf
  · refine h.clean ht fun hf => ?_
    obtain ⟨pd', hpd', hdirty⟩ := hd hf
    obtain ⟨pd, hpd, heq⟩ := hu.dirty hf pd' hpd'
    exact ⟨pd, hpd, heq ▸ hdirty⟩

/-- A change that extends the tables keeps the representation if every entry of the result is
represented or one whose bytes have not moved. -/
private theorem Coherent.of_extends (h : Coherent x m s) (hc : Consistent fl s)
    (hk : FilesKept s t) (hx : Extends s t)
    (hentry : ∀ p i e, x ≠ some p → i ∈ t.spt p → t.spte i = some e →
      EntryOk (m p) t p e ∨ (i ∈ s.spt p ∧ s.spte i = some e ∧ Unmoved s t p e)) :
    Coherent x m t := by
  constructor
  · intro p i e hp hi he
    rcases hentry p i e hp hi he with hok | ⟨hi', he', hun⟩
    · exact hok
    · exact (h.entry p i e hp hi' he').transfer (h.opened p hp (hc.live p i hi'))
        (hk.source p) hun
  · intro p hp hlive
    obtain ⟨f, hf, hopen⟩ := h.opened p hp (hx.pagedir p ▸ hlive)
    obtain ⟨file, hfile⟩ := Option.isSome_iff_exists.mp hopen
    obtain ⟨file', hfile', -⟩ := hk.handle f file hfile
    exact ⟨f, hk.executable ▸ hf, by simp [hfile']⟩
  · intro p q f hp hq
    rw [hk.executable]
    exact h.apart p q f (hx.pagedir p ▸ hp) (hx.pagedir q ▸ hq)
  · intro p u hp hlive hm
    obtain ⟨i, e, hi, he, hup⟩ := h.stored p u hp (hx.pagedir p ▸ hlive) hm
    obtain ⟨e', he', hup', -⟩ := hx.spte i e he
    exact ⟨i, e', hx.spt p i hi, he', hup'.trans hup⟩

private theorem Coherent.same (h : Coherent x m s) (hc : Consistent fl s) (hk : FilesKept s t)
    (hx : Extends s t) (hspte : t.spte = s.spte) (hspt : t.spt = s.spt)
    (hpd : t.pagedir = s.pagedir) (hframe : t.frame = s.frame) (hmem : t.mem = s.mem)
    (hdev : t.swapDevice = s.swapDevice) : Coherent x m t := by
  refine h.of_extends hc hk hx fun p i e _ hi he => .inr ⟨hspt ▸ hi, hspte ▸ he, ?_⟩
  refine ⟨fun f fr _ hfr => ⟨fr, hframe ▸ hfr, by rw [hmem]⟩, fun _ _ => by rw [hdev],
    fun _ pd' hpd' => ⟨pd', hpd ▸ hpd', rfl⟩⟩

theorem dirty_update {q : Pid} {u : Addr}
    (hpd : s.pagedir p = some pd) (ht : t.pagedir = Function.update s.pagedir p (some pd'))
    (hd : q = p → pagedirIsDirty pd' u = pagedirIsDirty pd u) {pd1 : PageDir}
    (h : t.pagedir q = some pd1) :
    ∃ pd0, s.pagedir q = some pd0 ∧ pagedirIsDirty pd1 u = pagedirIsDirty pd0 u := by
  rw [ht] at h
  by_cases hqp : q = p
  · subst hqp
    rw [Function.update_self, Option.some.injEq] at h
    exact ⟨pd, hpd, h ▸ hd rfl⟩
  · exact ⟨pd1, by simpa [hqp] using h, rfl⟩

private theorem Coherent.touch (h : Coherent x m s) (hc : Consistent fl s) (hk : FilesKept s t)
    (hx : Extends s t) (hpd : s.pagedir p = some pd)
    (hsame : SameMapping pd pd') (hm : SameMemory (s.setPagedir p pd') t) : Coherent x m t := by
  refine h.of_extends hc hk hx fun q i e _ hi he => .inr ⟨hm.spt ▸ hi, hm.spte ▸ he, ?_⟩
  exact ⟨fun f fr _ hfr => ⟨fr, hm.frame ▸ hfr, by rw [hm.mem]; rfl⟩,
    fun _ _ => by rw [hm.swapDevice]; rfl,
    fun _ _ hq => dirty_update hpd hm.pagedir (fun _ => hsame.isDirty e.upage) hq⟩

private theorem Coherent.pin (h : Coherent x m s) (hc : Consistent fl s) (hk : FilesKept s t)
    (hx : Extends s t) {b : Bool} (hf : s.frame f = some fr)
    (hm : SameMemory (s.setFrame f { fr with pinned := b }) t) : Coherent x m t := by
  refine h.of_extends hc hk hx fun q i e _ hi he => .inr ⟨hm.spt ▸ hi, hm.spte ▸ he, ?_⟩
  refine ⟨fun g gr _ hgr => ?_, fun _ _ => by rw [hm.swapDevice]; rfl,
    fun _ pd' hq => ⟨pd', hm.pagedir ▸ hq, rfl⟩⟩
  have hgr' : Function.update s.frame f (some { fr with pinned := b }) g = some gr :=
    (congrFun hm.frame g).symm.trans hgr
  by_cases hgf : g = f
  · subst hgf
    rw [Function.update_self, Option.some.injEq] at hgr'
    exact ⟨fr, hf, by rw [hm.mem, ← hgr']; rfl⟩
  · exact ⟨gr, by simpa [hgf] using hgr', by rw [hm.mem]; rfl⟩

/-- Adding an offset within the page to the start of a page stays in the page. -/
theorem pgRoundDown_add {u : Addr} (hu : pgOfs u = 0) (j : Fin PGSIZE) :
    pgRoundDown (u + BitVec.ofNat 32 j.val) = u := by
  have hj := j.isLt
  rw [pgOfs_eq_zero_iff] at hu
  simp only [PGSIZE] at hj
  have hlt := u.isLt
  apply BitVec.eq_of_toNat_eq
  rw [toNat_pgRoundDown, BitVec.toNat_add, BitVec.toNat_ofNat]
  omega

private theorem Coherent.insert (h : Coherent none m s) (hc : Consistent fl s)
    (hk : FilesKept s t) (hx : Extends s t)
    (hi : s.spte i = none) (hp : (s.pagedir p).isSome) (hu : pgOfs e.upage = 0)
    (hn : ∀ j ∈ s.spt p, ∀ e', s.spte j = some e' → e'.upage ≠ e.upage)
    (hf : e.frame = none) (ht : e.type ≠ .swap) (hb : Backed s p e)
    (hm : SameMemory { s.newSpte i e with spt := Function.update s.spt p (i :: s.spt p) } t) :
    Coherent none m t := by
  have hnew : EntryOk (m p) t p e := by
    refine ⟨fun hz => ?_, fun hfile => ?_, fun f fr hef => ?_, fun hs => absurd hs ht, fun _ _ j => ?_⟩
    · rcases hb with ⟨-, hread⟩ | ⟨f, hty, -⟩
      · exact hread
      · rw [hty] at hz
        cases hz
    · rw [hk.executable]
      rcases hb with ⟨hty, hread⟩ | ⟨f, -, hb⟩
      · rw [hty] at hfile
        simp [hread] at hfile
      · exact ⟨f, hb⟩
    · rw [hf] at hef
      cases hef
    · by_contra hne
      obtain ⟨j', e', hj', he', hup⟩ := h.stored p _ (by simp) hp hne
      rw [pgRoundDown_add hu] at hup
      exact hn j' hj' e' he' hup
  refine h.of_extends hc hk hx fun q j ej _ hj hej => ?_
  rw [hm.spt] at hj
  rw [hm.spte] at hej
  by_cases hji : j = i
  · subst hji
    have hqp : q = p := by
      by_contra hqp
      obtain ⟨_, hent, -⟩ := hc.entry q j (by simpa [hqp] using hj)
      cases hi.symm.trans hent
    subst hqp
    have heq : e = ej := by simpa [VmState.newSpte] using hej
    exact .inl (heq ▸ hnew)
  · refine .inr ⟨?_, by simpa [VmState.newSpte, hji] using hej, ?_⟩
    · by_cases hqp : q = p
      · subst hqp
        simpa [hji] using hj
      · simpa [hqp] using hj
    · exact ⟨fun f fr _ hfr => ⟨fr, hm.frame ▸ hfr, by rw [hm.mem]; rfl⟩,
        fun _ _ => by rw [hm.swapDevice]; rfl, fun _ pd' hq => ⟨pd', hm.pagedir ▸ hq, rfl⟩⟩

/-- A page leaves memory: its bytes go to the slot the entry then names, or were nowhere else
needed. -/
private theorem Coherent.evict (h : Coherent none m s) (hc : Consistent .idle s)
    (hk : FilesKept s t) (hx : Extends s t) {v : FrameAddr}
    {e' : SptEntry} (hi : i ∈ s.spt p) (hpd : s.pagedir p = some pd)
    (hnew : EntryOk (m p) t p e') (hspt : t.spt = s.spt)
    (hspte : t.spte = Function.update s.spte i (some e'))
    (hframe : t.frame = Function.update s.frame v none)
    (hpds : t.pagedir = Function.update s.pagedir p (some (pagedirClearPage pd e.upage)))
    (hmem : t.mem = s.mem)
    (hdev : ∀ j ej, j ≠ i → s.spte j = some ej → ej.type = .swap → ej.frame = none →
      readSectors t.swapDevice ej.swapSlot = readSectors s.swapDevice ej.swapSlot) :
    Coherent none m t := by
  refine h.of_extends hc hk hx fun q j ej _ hj hej => ?_
  rw [hspt] at hj
  rw [hspte] at hej
  by_cases hji : j = i
  · subst hji
    cases hc.spt_disjoint q p j hj hi
    have heq : e' = ej := by simpa using hej
    exact .inl (heq ▸ hnew)
  · have hej' : s.spte j = some ej := by simpa [hji] using hej
    refine .inr ⟨hj, hej', fun g gr _ hgr => ?_, hdev j ej hji hej', fun _ _ hq => ?_⟩
    · rw [hframe] at hgr
      have hgv : g ≠ v := by
        rintro rfl
        simp at hgr
      exact ⟨gr, by simpa [hgv] using hgr, by rw [hmem]⟩
    · exact dirty_update hpd hpds (fun _ => pagedirIsDirty_clearPage ..) hq

private theorem Coherent.push (h : Coherent x m s) {k : KPage} (hc : Consistent (.page k) s)
    (hk : FilesKept s t) (hx : Extends s t)
    (hf : s.frame f = none) (hspt : t.spt = s.spt) (hspte : t.spte = s.spte)
    (hframe : t.frame = Function.update s.frame f (some fr)) (hpds : t.pagedir = s.pagedir)
    (hmem : t.mem = Function.update s.mem k d) (hdev : t.swapDevice = s.swapDevice) :
    Coherent x m t := by
  refine h.of_extends hc hk hx fun q j ej _ hj hej => ?_
  rw [hspt] at hj
  rw [hspte] at hej
  refine .inr ⟨hj, hej, fun g gr hef hgr => ?_, fun _ _ => by rw [hdev],
    fun _ pd' hq => ⟨pd', hpds ▸ hq, rfl⟩⟩
  obtain ⟨-, gr', -, hgr', -⟩ := hc.resident q j ej g hj hej hef
  have hgf : g ≠ f := by
    rintro rfl
    cases hf.symm.trans hgr'
  have heq : gr' = gr := by
    rw [hframe] at hgr
    simpa [hgf, hgr'] using hgr
  subst heq
  exact ⟨gr', hgr', by rw [hmem, Function.update_of_ne (hc.flight_page k g gr' rfl hgr')]⟩

/-- The bytes of a frame in flight change, and with it the frame. -/
private theorem unmoved_of_flight {g : FrameAddr} (hc : Consistent (.frame f) s)
    {o : Option Frame} {q : Pid} {j : SpteAddr} {ej : SptEntry} {gr : Frame}
    (hf : s.frame f = some fr) (hj : j ∈ s.spt q) (hej : s.spte j = some ej)
    (hef : ej.frame = some g) (hframe : t.frame = Function.update s.frame f o)
    (hmem : t.mem = Function.update s.mem fr.kpage d) (hgr : t.frame g = some gr) :
    ∃ gr', s.frame g = some gr' ∧ t.mem gr.kpage = s.mem gr'.kpage := by
  obtain ⟨-, gr', -, hgr', hback, -⟩ := hc.resident q j ej g hj hej hef
  obtain ⟨fr', hfr', hnone⟩ := hc.flight_frame f rfl
  have hgf : g ≠ f := by
    rintro rfl
    cases hgr'.symm.trans hfr'
    cases hback.symm.trans hnone
  have heq : gr' = gr := by
    rw [hframe] at hgr
    simpa [hgf, hgr'] using hgr
  subst heq
  refine ⟨gr', hgr', ?_⟩
  rw [hmem, Function.update_of_ne]
  intro hkp
  exact hgf (hc.kpage_inj g f gr' fr hgr' hf hkp)

private theorem Coherent.discard (h : Coherent x m s)
    (hc : Consistent (.frame f) s) (hk : FilesKept s t) (hx : Extends s t) (hf : s.frame f = some fr) (hspt : t.spt = s.spt) (hspte : t.spte = s.spte)
    (hframe : t.frame = Function.update s.frame f none) (hpds : t.pagedir = s.pagedir)
    (hmem : t.mem = Function.update s.mem fr.kpage d) (hdev : t.swapDevice = s.swapDevice) :
    Coherent x m t := by
  refine h.of_extends hc hk hx fun q j ej _ hj hej => ?_
  rw [hspt] at hj
  rw [hspte] at hej
  exact .inr ⟨hj, hej, fun g gr hef hgr => unmoved_of_flight hc hf hj hej hef hframe hmem hgr,
    fun _ _ => by rw [hdev], fun _ pd' hq => ⟨pd', hpds ▸ hq, rfl⟩⟩

/-- What a page that is not resident, or clean and not in swap, is loaded with is what it has
to have. -/
theorem EntryOk.source
    (h : EntryOk b s p e) (hf : e.type = .swap → e.frame = none)
    (hc : e.frame ≠ none → ∃ pd, s.pagedir p = some pd ∧ pagedirIsDirty pd e.upage = false)
    (hd : Source s e d) : d = wanted b s e := by
  cases hd with
  | zero ht =>
    funext j
    have hnone := h.clean (by simp [ht]) hc j
    simp [wanted, hnone, initialByte, h.zero ht]
  | file ht hef ho =>
    funext j
    have hnone := h.clean (by simp [ht]) hc j
    simp [wanted, hnone, initialByte, hef, ho, copyBytes]
  | swap ht hs => exact h.swapped ht (hf ht)

private theorem Coherent.attach (h : Coherent none m s)
    (hc : Consistent (.frame f) s) (hk : FilesKept s t) (hx : Extends s t) {e' : SptEntry} {b : Bool}
    (hf : s.frame f = some fr) (hi : i ∈ s.spt p) (he : s.spte i = some e)
    (hpd : s.pagedir p = some pd) (hinst : installPage b pd e.upage fr.kpage e.writable = some pd')
    (hd : Source s e d)
    (hsame : ∃ slot, e' = { e with swapSlot := slot, frame := some f, pagedir := some p })
    (hspt : t.spt = s.spt) (hspte : t.spte = Function.update s.spte i (some e'))
    (hframe : t.frame = Function.update s.frame f (some { fr with spte := some i }))
    (hpds : t.pagedir = Function.update s.pagedir p (some pd'))
    (hmem : t.mem = Function.update s.mem fr.kpage d) (hdev : t.swapDevice = s.swapDevice) :
    Coherent none m t := by
  have hok := h.entry p i e (by simp) hi he
  have hnone := hc.frame_of_installPage hi he hpd hinst
  obtain ⟨slot, rfl⟩ := hsame
  refine h.of_extends hc hk hx fun q j ej _ hj hej => ?_
  rw [hspt] at hj
  rw [hspte] at hej
  by_cases hji : j = i
  · subst hji
    cases hc.spt_disjoint q p j hj hi
    rw [Function.update_self, Option.some.injEq] at hej
    subst hej
    refine .inl ⟨hok.zero, ?_, fun g gr hg hgr => ?_, fun _ hn => (by cases hn), fun ht _ => ?_⟩
    · rw [hk.executable]
      exact hok.file
    · cases hg
      rw [hframe, Function.update_self, Option.some.injEq] at hgr
      subst hgr
      have hw := hok.wanted_congr (h.opened p (by simp) (by simp [hpd])) (hk.source p)
      rw [hmem, Function.update_self, hok.source (fun _ => hnone) (absurd hnone) hd]
      exact hw.symm
    · exact hok.clean ht fun hne => absurd hnone hne
  · have hej' : s.spte j = some ej := by simpa [hji] using hej
    refine .inr ⟨hj, hej', fun g gr hef hgr => unmoved_of_flight hc hf hj hej' hef hframe hmem hgr,
      fun _ _ => by rw [hdev], fun _ _ hq => dirty_update hpd hpds (fun hqp => ?_) hq⟩
    subst hqp
    have hne : pgRoundDown ej.upage ≠ pgRoundDown e.upage := by
      rw [hc.pgRoundDown_upage hj hej', hc.pgRoundDown_upage hi he]
      exact fun heq => hji (hc.upage_inj q j i ej e hj hi hej' he heq)
    rw [pagedirIsDirty_setPage (installPage_some hinst).2, if_neg hne]

theorem PageEffect.coherent {fl' : Flight} {L D : List Nat}
    (heff : PageEffect fl s L fl' t) (hk : FilesKept s t) (hc : Consistent fl s)
    (ho : SlotsOwned D s) (h : Coherent none m s) : Coherent none m t := by
  have hx := heff.extends
  cases heff with
  | quiet hm =>
    exact h.same hc hk hx hm.spte hm.spt hm.pagedir hm.frame hm.mem hm.swapDevice
  | touch hpd hsame hm => exact h.touch hc hk hx hpd hsame hm
  | pin hf b hm => exact h.pin hc hk hx hf hm
  | insert hi hp hu hn hf ht hb hm => exact h.insert hc hk hx hi hp hu.1 hn hf ht.1 hb hm
  | @evictClean _ _ v fr i p e pd hv _ hi he hev hpd hd ht hm =>
    have hok := h.entry p i e (by simp) hi he
    refine h.evict hc hk hx (e := e) hi hpd ?_ hm.spt hm.spte hm.frame hm.pagedir hm.mem
      fun _ _ _ _ _ _ => by rw [hm.swapDevice]; rfl
    refine ⟨hok.zero, ?_, fun _ _ hf => (by cases hf), fun hs => absurd hs ht, fun _ _ => ?_⟩
    · rw [hk.executable]
      exact hok.file
    · exact hok.clean ht fun _ => ⟨pd, hpd, hd⟩
  | @evictAlloc _ _ v fr i p e pd n hv _ hi he hev hpd hd ht hn hb hm =>
    have hok := h.entry p i e (by simp) hi he
    have hw := hok.wanted_congr (h.opened p (by simp) (by simp [hpd])) (hk.source p)
    refine h.evict hc hk hx (e := e) hi hpd ?_ hm.spt hm.spte hm.frame hm.pagedir hm.mem ?_
    · refine ⟨fun hz => (by cases hz), ?_, fun _ _ hf => (by cases hf), fun _ _ => ?_,
        fun hs => absurd rfl hs⟩
      · rintro (hf | hr)
        · cases hf
        · rw [hk.executable]
          exact hok.file (.inr hr)
      · rw [hm.swapDevice]
        exact (readSectors_writeSectors ..).trans
          ((hok.resident v fr hev hv).trans hw.symm)
    -- The slot was free, so every other page in swap is elsewhere.
    · intro j ej hji hej hty hnf
      obtain ⟨-, -, hmod, hset⟩ := ho.owner j ej _ hej (ho.field j ej hej hty (.inl hnf))
      rw [hm.swapDevice]
      refine readSectors_writeSectors_of_ne _ _ (Nat.mul_mod_left ..) hmod fun heq => ?_
      rw [heq, Nat.mul_div_cancel _ (by decide), hb] at hset
      cases hset
  | @evictKeep _ _ v fr i p e pd hv _ hi he hev hpd ht hslot hm =>
    have hok := h.entry p i e (by simp) hi he
    have hw := hok.wanted_congr (h.opened p (by simp) (by simp [hpd])) (hk.source p)
    have hown := ho.field i e he ht (.inr hslot)
    refine h.evict hc hk hx (e := e) hi hpd ?_ hm.spt hm.spte hm.frame hm.pagedir hm.mem ?_
    · refine ⟨hok.zero, ?_, fun _ _ hf => (by cases hf), fun _ _ => ?_, fun hs => absurd ht hs⟩
      · rw [hk.executable]
        exact hok.file
      · rw [hm.swapDevice]
        exact (readSectors_writeSectors ..).trans
          ((hok.resident v fr hev hv).trans hw.symm)
    · intro j ej hji hej hty hnf
      have hown' := ho.field j ej hej hty (.inl hnf)
      rw [hm.swapDevice]
      refine readSectors_writeSectors_of_ne _ _ (ho.owner i e _ he hown).2.2.1
        (ho.owner j ej _ hej hown').2.2.1 fun heq => ?_
      exact hji (ho.unique j i ej e _ hej he (heq ▸ hown') hown)
  | palloc _ _ hm =>
    exact h.same hc hk hx hm.spte hm.spt hm.pagedir hm.frame hm.mem hm.swapDevice
  | push hf hm =>
    exact h.push hc hk hx hf hm.spt hm.spte hm.frame hm.pagedir hm.mem hm.swapDevice
  | discard hf hm =>
    exact h.discard hc hk hx hf hm.spt hm.spte hm.frame hm.pagedir hm.mem hm.swapDevice
  | attach hf hi he hpd hinst hd hm =>
    exact h.attach hc hk hx hf hi he hpd hinst hd ⟨_, rfl⟩ hm.spt hm.spte hm.frame hm.pagedir
      hm.mem hm.swapDevice
  | attachFree hf hi he hpd hinst hd _ hm =>
    exact h.attach hc hk hx hf hi he hpd hinst hd ⟨_, rfl⟩ hm.spt hm.spte hm.frame hm.pagedir
      hm.mem hm.swapDevice

end Pintos.Vm

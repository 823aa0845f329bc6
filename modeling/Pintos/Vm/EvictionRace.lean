import Pintos.Vm.Transparency

/-!
# Eviction and a fault on the evicted page

One thread evicts a page while the page's owner touches it. `do_eviction` drops `frame_lock`
after it has unmapped the page, and the owner's fault takes no lock before it reads the entry's
`type` and `swap_slot`. A load that starts before the page has been written out finds the wrong
bytes; one that starts later finds those that the page had.
Source `vm/frame.c:67–133`, `userprog/exception.c:265–304`, `vm/page.c:96–134`.
-/

namespace Pintos.Vm

open Pintos.Base Pintos.Threads Pintos.Userprog Pintos.Lib Pintos.Filesys

variable {phase phase' : EvictPhase} {fr : Frame} {p : Pid} {r : Replacement} {e e' : SptEntry}
  {i j : SpteAddr}

variable {fl : Flight} {s t u : VmState} {D : List Nat}

/-- How far an eviction has come: not started, page unmapped, slot chosen, page written. -/
inductive EvictPhase where
  | start
  | unmapped (ev : Evicted)
  | assigned (ev : Evicted)
  | finished (ev : Evicted)
  deriving DecidableEq, Repr

/-- The page that the eviction has taken. -/
def EvictPhase.evicted : EvictPhase → Option Evicted
  | .start => none
  | .unmapped ev | .assigned ev | .finished ev => some ev

/-- The next phase of an eviction. -/
def evictStep (r : Replacement) (s : VmState) : EvictPhase → Option (EvictPhase × VmState)
  | .start => do
    let (v, s) ← selectVictim r s
    let (ev, s) ← evictUnmap v s
    some (.unmapped ev, s)
  | .unmapped ev =>
    if ev.writeBack then do
      let s ← evictAssign ev s
      some (.assigned ev, s)
    else some (.finished ev, s)
  | .assigned ev => do
    let s ← evictWrite ev s
    some (.finished ev, s)
  | .finished _ => none

/-- The two ways to load a page: `page_fault`, or `vm_load_page`. -/
inductive PageLoad where
  | fault (r : Replacement)
  | vmLoadPage (pin : Bool) (r : Replacement)

/-- Process `p` loads the page of entry `i`. -/
def PageLoad.exec (p : Pid) (i : SpteAddr) (upage : Addr) (s : VmState) :
    PageLoad → Option (Bool × VmState)
  | .fault r => handlePageLoad p i r s
  | .vmLoadPage pin r => Vm.vmLoadPage p upage pin r s

/-- The owner of entry `i` loads its page; the process and the address are part of the result. -/
def loadPage (l : PageLoad) (i : SpteAddr) (s : VmState) : Option (Pid × Addr × Bool × VmState) := do
  let e ← s.spte i
  let p ← e.pagedir
  let (ok, s) ← l.exec p i e.upage s
  some (p, e.upage, ok, s)

/-- The bytes of the frame mapped at a user page. -/
def mappedBytes (p : Pid) (upage : Addr) (s : VmState) : Option PageData := do
  let pd ← s.pagedir p
  let k ← pagedirGetPage pd upage
  some (s.mem k)

/-- The state of the race. `touched` is set when the owner has touched the page, and `loaded`
are the bytes of the frame that its load mapped, if the load succeeded. -/
structure Race where
  vm : VmState
  phase : EvictPhase
  touched : Bool
  loaded : Option PageData

/-- The race before the eviction. -/
def Race.init (s : VmState) : Race := ⟨s, .start, false, none⟩

/-- A step of either thread. -/
inductive RaceOp where
  | evict
  | load (l : PageLoad)

/-- One step: the next phase of the eviction, or the whole load. The page is touched once, and
after it was unmapped: before, and after a load, an access does not fault. -/
def raceStep (r : Replacement) (c : Race) : RaceOp → Option Race
  | .evict => do
    let (phase, vm) ← evictStep r c.vm c.phase
    some { c with vm, phase }
  | .load l => do
    let ev ← c.phase.evicted
    if c.touched then none
    else
      let (p, upage, ok, vm) ← loadPage l ev.spte c.vm
      some { c with vm, touched := true, loaded := if ok then mappedBytes p upage vm else none }

/-- A load is not begun while the page still has to be written out. -/
def LoadsSettled (c : Race) : RaceOp → Prop
  | .evict => True
  | .load _ => ∃ ev, c.phase = .finished ev ∨ (c.phase = .unmapped ev ∧ ev.writeBack = false)

/-- A resident page that is clean and not in swap has the bytes that loading it again gives. -/
def CleanCurrent (s : VmState) : Prop :=
  ∀ p i e f fr pd d, i ∈ s.spt p → s.spte i = some e → e.frame = some f → s.frame f = some fr →
    s.pagedir p = some pd → pagedirIsDirty pd e.upage = false → e.type ≠ .swap →
    Source s e d → d = s.mem fr.kpage

private theorem Represents.cleanCurrent {m : UserMemory} (h : Represents m s) : CleanCurrent s := by
  intro p i e f fr pd d hi he hf hfr hpd hd ht hsrc
  have hok := h.coherent.entry p i e (by simp) hi he
  rw [hok.resident f fr hf hfr]
  exact hok.source (fun hs => absurd hs ht) (fun _ => ⟨pd, hpd, hd⟩) hsrc

/-! ## What a load reads -/

/-- The entry and the bytes that loading its page gives are as they were. -/
def SameSource (s t : VmState) (i : SpteAddr) (e : SptEntry) : Prop :=
  t.spte i = some e ∧ ∀ d, Source t e d → Source s e d

/-- Where a page comes from depends on the files and the swap device only. -/
private theorem Source.congr {d : PageData} (h : Source t e d)
    (hf : t.file = s.file) (hi : t.inode = s.inode)
    (hb : t.swapBitmap.length = s.swapBitmap.length)
    (hd : e.type = .swap →
      readSectors t.swapDevice e.swapSlot = readSectors s.swapDevice e.swapSlot) :
    Source s e d := by
  cases h with
  | zero ht => exact .zero ht
  | file ht hef ho =>
    rw [hi]
    exact .file ht hef (hf ▸ ho)
  | swap ht hv =>
    rw [hd ht]
    exact .swap ht (by simpa [validSlot, hb] using hv)

/-- A page leaving memory does not change where the page of another entry comes from. -/
private theorem Leaves.sameSource {v : FrameAddr} {pd : PageDir} (h : Leaves s v fr i p e pd u) (ho : SlotsOwned D s)
    (he : s.spte i = some e) (hef : e.frame = some v)
    (hj : s.spte j = some e') (hn : e'.frame = none) : SameSource s u j e' := by
  refine ⟨(h.untouched he hef).spte j e' hj hn, fun d hd => ?_⟩
  have hslot : e'.type = .swap → slotOf s.swapLog j = some e'.swapSlot := fun ht =>
    ho.field j e' hj ht (.inl hn)
  cases h with
  | clean => exact hd.congr rfl rfl rfl fun _ => rfl
  | alloc _ _ _ hb =>
    refine hd.congr rfl rfl (length_bitmapSet ..) fun ht => ?_
    obtain ⟨-, -, hmod, hused⟩ := ho.owner j e' _ hj (hslot ht)
    refine readSectors_writeSectors_of_ne _ _ (Nat.mul_mod_left ..) hmod fun heq => ?_
    rw [heq, Nat.mul_div_cancel _ (by decide), hb] at hused
    cases hused
  | keep hty hne =>
    refine hd.congr rfl rfl rfl fun ht => ?_
    have hown := ho.field i e he hty (.inr hne)
    obtain ⟨-, -, hmod, -⟩ := ho.owner j e' _ hj (hslot ht)
    obtain ⟨-, -, hmod', -⟩ := ho.owner i e _ he hown
    refine readSectors_writeSectors_of_ne _ _ hmod' hmod fun heq => ?_
    have hji : j = i := ho.unique j i e' e _ hj he (hslot ht) (heq ▸ hown)
    subst hji
    cases he.symm.trans hj
    simp [hef] at hn

private theorem doEviction_sameSource (hc : Consistent fl s) (hfl : ∀ f, fl ≠ .frame f)
    (ho : SlotsOwned D s) {k : KPage} (h : doEviction r s = some (k, t)) (hj : s.spte j = some e') (hn : e'.frame = none) :
    SameSource s t j e' := by
  simp only [doEviction, Option.bind_eq_bind, Option.bind_eq_some_iff] at h
  obtain ⟨⟨v, s1⟩, hsel, ⟨ev, s2⟩, hun, hrest⟩ := h
  obtain ⟨hpath, hscan, -⟩ := selectVictim_path fl hsel
  obtain ⟨fr, i, e, p, pd, hv, hi, he, hp, hpd, -, -, -, hleave⟩ := evict_leaves hun hrest
  obtain ⟨-, hef⟩ := (hpath.consistent hc).frame_entry (hfl v) hv hi he hp
  have ho1 : SlotsOwned _ s1 := hpath.effectPath.slotsOwned hc ho
  obtain ⟨hspte, hsrc⟩ := hleave.sameSource ho1 he hef (hscan.spte ▸ hj) hn
  refine ⟨hspte, fun d hd => (hsrc d hd).congr hscan.file hscan.inode ?_ fun _ => ?_⟩
  · rw [hscan.swapBitmap]
  · rw [hscan.swapDevice]

private theorem frameAlloc_sameSource (hc : Consistent fl s) (hfl : ∀ f, fl ≠ .frame f)
    (ho : SlotsOwned D s) {f : FrameAddr} (h : frameAlloc r s = some (f, t)) (hj : s.spte j = some e') (hn : e'.frame = none) :
    SameSource s t j e' ∧ ∃ k, t.frame f = some ⟨k, none, false⟩ ∧ t.mem k = fun _ => 0 := by
  simp only [frameAlloc, Option.bind_eq_bind, Option.bind_eq_some_iff] at h
  obtain ⟨f', -, ⟨k, s1⟩, hpage, h⟩ := h
  have hm : SameMemory s s.mallocFrame.2 := sameMemory_takeHeap s
  have hc1 : Consistent fl s.mallocFrame.2 := hc.congr hm
  have ho1 : SlotsOwned _ s.mallocFrame.2 :=
    ((PageEffect.quiet hm).path (.of_eq rfl rfl rfl rfl rfl rfl)).effectPath.slotsOwned hc ho
  have hkept : SameSource s s1 j e' := by
    have hevict : ∀ r, doEviction r s.mallocFrame.2 = some (k, s1) → SameSource s s1 j e' := by
      intro r hr
      obtain ⟨hspte, hsrc⟩ := doEviction_sameSource hc1 hfl ho1 hr hj hn
      exact ⟨hspte, fun d hd => (hsrc d hd).congr rfl rfl rfl fun _ => rfl⟩
    unfold framePage at hpage
    split at hpage
    · exact hevict _ hpage
    · split at hpage
      · next ks hget =>
        cases hpage
        simp only [pallocGetUserPage] at hget
        split at hget
        · cases hget
        · cases hget
          exact ⟨hj, fun d hd => hd.congr rfl rfl rfl fun _ => rfl⟩
      · exact hevict _ hpage
  cases h
  exact ⟨⟨hkept.1, fun d hd => hkept.2 d (hd.congr rfl rfl rfl fun _ => rfl)⟩, k, by simp, by simp⟩

private theorem mappedBytes_attachFrame {f : FrameAddr} {d : PageData} (h : attachFrame p i f s = some (true, t))
    (he : s.spte i = some e) (hf : s.frame f = some fr) (hd : s.mem fr.kpage = d) :
    mappedBytes p e.upage t = some d := by
  obtain ⟨e', fr', pd, he', hf', -, ⟨hok, -⟩ | ⟨-, pd', hinst, rfl⟩⟩ := attachFrame_some h
  · cases hok
  · cases he.symm.trans he'
    cases hf.symm.trans hf'
    have hget := pagedirGetPage_setPage (installPage_some hinst).2 e.upage
    rw [if_pos rfl] at hget
    simp [mappedBytes, VmState.attached, hget, hd]

private theorem vmLoadSpte_bytes (hc : Consistent fl s) (hfl : ∀ f, fl ≠ .frame f)
    (ho : SlotsOwned D s) {pin : Bool}
    (he : s.spte i = some e) (hn : e.frame = none) (hl : vmLoadSpte p i pin r s = some (true, t)) :
    ∃ d, mappedBytes p e.upage t = some d ∧ Source s e d := by
  simp only [vmLoadSpte, Option.bind_eq_bind, Option.bind_eq_some_iff] at hl
  obtain ⟨⟨f, s1⟩, halloc, fr, hfr, e1, he1, ⟨ok1, s2⟩, hread, hl⟩ := hl
  obtain ⟨⟨hspte, hsrc⟩, k, hframe, hmem⟩ := frameAlloc_sameSource hc hfl ho halloc he hn
  cases hfr.symm.trans hframe
  cases he1.symm.trans hspte
  obtain ⟨s3, d, hsame, -, rfl, hsource⟩ := vmReadPage_some hread hmem
  dsimp only at hl
  split at hl
  · next hok =>
    rw [Option.bind_eq_some_iff] at hl
    obtain ⟨⟨ok2, s4⟩, hattach, hl⟩ := hl
    obtain rfl : ok2 = true := by simp_all
    have hbytes : mappedBytes p e.upage s4 = some d :=
      mappedBytes_attachFrame hattach (hsame.spte ▸ he1) (hsame.frame ▸ hframe)
        (by simp [VmState.setMem])
    refine ⟨d, ?_, hsrc d (hsource hok).2⟩
    cases hl
    cases pin <;> exact hbytes
  · simp at hl

private theorem handlePageLoad_bytes (hc : Consistent fl s) (hfl : ∀ f, fl ≠ .frame f)
    (ho : SlotsOwned D s)
    (he : s.spte i = some e) (hn : e.frame = none) (hl : handlePageLoad p i r s = some (true, t)) :
    ∃ d, mappedBytes p e.upage t = some d ∧ Source s e d := by
  simp only [handlePageLoad, Option.bind_eq_bind, Option.bind_eq_some_iff] at hl
  obtain ⟨⟨f, s1⟩, halloc, fr, hfr, e1, he1, ⟨ok1, s2⟩, hread, hl⟩ := hl
  obtain ⟨⟨hspte, hsrc⟩, k, hframe, hmem⟩ := frameAlloc_sameSource hc hfl ho halloc he hn
  cases hfr.symm.trans hframe
  cases he1.symm.trans hspte
  by_cases hty : e.type = .swap
  · obtain ⟨rfl, hvalid, rfl⟩ := faultReadPage_swap hread hty
    dsimp only at hl
    rw [if_pos rfl] at hl
    refine ⟨_, ?_, hsrc _ (.swap hty hvalid)⟩
    refine mappedBytes_attachFrame hl (e := { e with swapSlot := 0 }) ?_ hframe ?_
    · simp [VmState.setSpte]
    · simp [VmState.setSpte, VmState.slotFreed, VmState.setMem]
  · obtain ⟨s3, d, hsame, -, rfl, hsource⟩ := faultReadPage_some hread hmem hty
    split at hl
    · next hok =>
      exact ⟨d, mappedBytes_attachFrame hl (hsame.spte ▸ he1) (hsame.frame ▸ hframe)
        (by simp [VmState.setMem]), hsrc d (hsource hok).2⟩
    · simp at hl

private theorem loadPage_bytes (hc : Consistent fl s) (hfl : ∀ f, fl ≠ .frame f)
    (ho : SlotsOwned D s) {q : Pid} {l : PageLoad} {upage : Addr}
    (hi : i ∈ s.spt p) (he : s.spte i = some e) (hp : e.pagedir = some p) (hn : e.frame = none)
    (hl : loadPage l i s = some (q, upage, true, t)) :
    ∃ d, mappedBytes q upage t = some d ∧ Source s e d := by
  simp only [loadPage, he, hp, Option.bind_eq_bind, Option.bind_some, Option.bind_eq_some_iff] at hl
  obtain ⟨⟨ok, t'⟩, hload, hl⟩ := hl
  cases hl
  cases l with
  | fault r => exact handlePageLoad_bytes hc hfl ho he hn hload
  | vmLoadPage pin r =>
    have hfind : sptLookup s p e.upage = some i := by
      rw [sptLookup, hc.pgRoundDown_upage hi he]
      exact hc.sptFind_eq hi he
    simp only [PageLoad.exec, Vm.vmLoadPage, vmFindSpte, hc.pgRoundDown_upage hi he, hfind, Option.bind_eq_bind, he,
      Option.bind_some, hn, Option.isSome_none, Bool.false_eq_true, if_false] at hload
    exact vmLoadSpte_bytes hc hfl ho he hn hload

/-! ## The race -/

/-- What the eviction has done so far, if nothing else has happened since it began in `s`. -/
inductive Progress (r : Replacement) (s : VmState) : EvictPhase → VmState → Prop where
  | start : Progress r s .start s
  | unmapped {v ev s1 t} (hsel : selectVictim r s = some (v, s1))
      (hun : evictUnmap v s1 = some (ev, t)) : Progress r s (.unmapped ev) t
  | assigned {v ev s1 t u} (hsel : selectVictim r s = some (v, s1))
      (hun : evictUnmap v s1 = some (ev, t)) (hwb : ev.writeBack = true)
      (has : evictAssign ev t = some u) : Progress r s (.assigned ev) u
  | finished {v ev s1 t u k} (hsel : selectVictim r s = some (v, s1))
      (hun : evictUnmap v s1 = some (ev, t))
      (hrest : (if ev.writeBack then
          (evictAssign ev t).bind fun s => (evictWrite ev s).bind fun s => some (ev.kpage, s)
        else some (ev.kpage, t)) = some (k, u)) : Progress r s (.finished ev) u

private theorem Progress.evictStep
    (h : Progress r s phase t) (hs : evictStep r t phase = some (phase', u)) :
    Progress r s phase' u := by
  cases h with
  | start =>
    simp only [Vm.evictStep, Option.bind_eq_bind, Option.bind_eq_some_iff] at hs
    obtain ⟨⟨v, s1⟩, hsel, ⟨ev, s2⟩, hun, hs⟩ := hs
    cases hs
    exact .unmapped hsel hun
  | unmapped hsel hun =>
    simp only [Vm.evictStep, Option.bind_eq_bind] at hs
    split at hs
    · next hwb =>
      obtain ⟨s3, has, hs⟩ := Option.bind_eq_some_iff.mp hs
      cases hs
      exact .assigned hsel hun hwb has
    · next hwb =>
      cases hs
      exact .finished hsel hun (if_neg hwb)
  | assigned hsel hun hwb has =>
    simp only [Vm.evictStep, Option.bind_eq_bind, Option.bind_eq_some_iff] at hs
    obtain ⟨s3, hwrite, hs⟩ := hs
    cases hs
    exact .finished (k := _) hsel hun (by rw [if_pos hwb, has, Option.bind_some, hwrite]; rfl)
  | finished => cases hs

/-- A page that has left memory is loaded with the bytes that it had. -/
private theorem Leaves.source {v : FrameAddr} {pd : PageDir} (h : Leaves s v fr i p e pd u)
    (hclean : ∀ d, pagedirIsDirty pd e.upage = false → e.type ≠ .swap → Source s e d →
      d = s.mem fr.kpage) :
    ∃ e', u.spte i = some e' ∧ e'.frame = none ∧ e'.pagedir = e.pagedir ∧
      ∀ d, Source u e' d → d = s.mem fr.kpage := by
  cases h with
  | clean hd ht =>
    refine ⟨_, Function.update_self .., rfl, rfl, fun d hsrc => hclean d hd ht ?_⟩
    cases hsrc with
    | zero hty => exact .zero hty
    | file hty hf ho => exact .file hty hf ho
    | swap hty hv => exact .swap hty hv
  | alloc =>
    refine ⟨_, Function.update_self .., rfl, rfl, fun d hsrc => ?_⟩
    cases hsrc with
    | zero hty => cases hty
    | file hty => cases hty
    | swap => exact readSectors_writeSectors ..
  | keep ht =>
    refine ⟨_, Function.update_self .., rfl, rfl, fun d hsrc => ?_⟩
    cases hsrc with
    | zero hty => cases ht.symm.trans hty
    | file hty => cases ht.symm.trans hty
    | swap => exact readSectors_writeSectors ..

/-- Once the page need not be written any more, a load gives it the bytes that it had. -/
theorem Progress.load {ev : Evicted} (hc : Consistent .idle s)
    (ho : SlotsOwned D s) (hclean : CleanCurrent s) (h : Progress r s (.finished ev) t)
    {l : PageLoad} {upage : Addr} (hl : loadPage l ev.spte t = some (p, upage, true, u)) :
    mappedBytes p upage u = some (s.mem ev.kpage) := by
  obtain _ | _ | _ | @⟨v, ev, s1, _, _, k, hsel, hun, hrest⟩ := h
  obtain ⟨hpath, hscan, hev⟩ := selectVictim_path .idle hsel
  have hc1 := hpath.consistent hc
  have ho1 : SlotsOwned _ s1 := hpath.effectPath.slotsOwned hc ho
  have hev1 : evictable s1 v = true := by
    simpa [evictable, hscan.frame, hscan.frameTable] using hev
  obtain ⟨fr, i, e, q, pd, hv, hi, he, hq, hpd, rfl, hk, rfl, hleave⟩ := evict_leaves hun hrest
  obtain ⟨hiq, hef⟩ := hc1.frame_entry (by simp) hv hi he hq
  obtain ⟨L, heff, hfiles, -⟩ := hleave.effect hc1 hev1 hv hi he hq hpd
  obtain ⟨pd', hpd', hdirty⟩ := hscan.dirty q pd hpd
  obtain ⟨e', he', hn, hq', hsrc⟩ := hleave.source fun d hd hty hd' => by
    rw [hscan.mem]
    refine hclean q _ e v fr pd' d (hscan.spt ▸ hiq) (hscan.spte ▸ he) hef (hscan.frame ▸ hv) hpd'
      (hdirty _ ▸ hd) hty (hd'.congr hscan.file hscan.inode ?_ fun _ => ?_)
    · rw [hscan.swapBitmap]
    · rw [hscan.swapDevice]
  have hpath' := heff.path hfiles
  obtain ⟨d, hbytes, hd⟩ := loadPage_bytes (heff.consistent hc1) (by simp)
    (heff.slotsOwned hc1 ho1) (hpath'.extends.spt q _ hiq) he' (hq'.trans hq) hn hl
  rw [hbytes, hsrc d hd, hk, hscan.mem]

/-- What holds in every state of a race begun in `s` whose loads are settled. -/
structure RaceSafe (r : Replacement) (s : VmState) (c : Race) : Prop where
  progress : c.touched = false → Progress r s c.phase c.vm
  loaded : ∀ d, c.loaded = some d → ∃ ev, c.phase.evicted = some ev ∧ d = s.mem ev.kpage

private theorem evictStep_phase
    (hs : evictStep r t phase = some (phase', u)) :
    (phase = .start ∧ ∃ ev, phase' = .unmapped ev) ∨
      (∃ ev, phase = .unmapped ev ∧ (phase' = .assigned ev ∨ phase' = .finished ev)) ∨
      ∃ ev, phase = .assigned ev ∧ phase' = .finished ev := by
  cases phase with
  | start =>
    simp only [evictStep, Option.bind_eq_bind, Option.bind_eq_some_iff] at hs
    obtain ⟨_, -, ⟨ev, _⟩, -, hs⟩ := hs
    cases hs
    exact .inl ⟨rfl, ev, rfl⟩
  | unmapped ev =>
    simp only [evictStep, Option.bind_eq_bind] at hs
    split at hs
    · obtain ⟨_, -, hs⟩ := Option.bind_eq_some_iff.mp hs
      cases hs
      exact .inr (.inl ⟨ev, rfl, .inl rfl⟩)
    · cases hs
      exact .inr (.inl ⟨ev, rfl, .inr rfl⟩)
  | assigned ev =>
    obtain ⟨_, -, hs⟩ := Option.bind_eq_some_iff.mp hs
    cases hs
    exact .inr (.inr ⟨ev, rfl, rfl⟩)
  | finished => cases hs

private theorem evicted_evictStep {ev : Evicted}
    (h : phase.evicted = some ev) (hs : evictStep r t phase = some (phase', u)) :
    phase'.evicted = some ev := by
  rcases evictStep_phase hs with ⟨rfl, -⟩ | ⟨_, rfl, rfl | rfl⟩ | ⟨_, rfl, rfl⟩
  · cases h
  all_goals exact h

private theorem RaceSafe.step {c c' : Race} {op : RaceOp} (hc : Consistent .idle s)
    (ho : SlotsOwned D s) (hclean : CleanCurrent s) (h : RaceSafe r s c) (hop : LoadsSettled c op)
    (hs : raceStep r c op = some c') : RaceSafe r s c' := by
  cases op with
  | evict =>
    simp only [raceStep, Option.bind_eq_bind, Option.bind_eq_some_iff] at hs
    obtain ⟨⟨phase, vm⟩, hstep, hs⟩ := hs
    cases hs
    refine ⟨fun ht => (h.progress ht).evictStep hstep, fun d hd => ?_⟩
    obtain ⟨ev, hev, hmem⟩ := h.loaded d hd
    exact ⟨ev, evicted_evictStep hev hstep, hmem⟩
  | load l =>
    simp only [raceStep, Option.bind_eq_bind, Option.bind_eq_some_iff] at hs
    obtain ⟨ev, hev, hs⟩ := hs
    split at hs
    · cases hs
    · next ht =>
      obtain ⟨⟨p, upage, ok, vm⟩, hload, hs⟩ := Option.bind_eq_some_iff.mp hs
      cases hs
      refine ⟨fun hf => (by cases hf), fun d hd => ⟨ev, hev, ?_⟩⟩
      have hfin : Progress r s (.finished ev) c.vm := by
        have hprog := h.progress (by simpa using ht)
        obtain ⟨ev', hph | ⟨hph, hwb⟩⟩ := hop
        · rw [hph] at hev hprog
          cases hev
          exact hprog
        · rw [hph] at hev hprog
          cases hev
          obtain _ | ⟨hsel, hun⟩ := hprog
          exact .finished hsel hun (if_neg (by simp [hwb]))
      cases ok with
      | false => cases hd
      | true =>
        rw [if_pos rfl, hfin.load hc ho hclean hload] at hd
        exact (Option.some.inj hd).symm

/-- Eviction and a fault on the evicted page, after every run of plain operations and in every
other reachable state whose clean pages are current: if the page's owner does not begin to load it
before it has been written out, the frame that the load maps has the bytes that the page had when
it was unmapped. -/
theorem load_returns_evicted_bytes {pages slots : Nat} {mem : KPage → PageData}
    {device : Nat → SectorData} {inode : InodeNo → Inode} {heap : Nat → Option Nat}
    {ops : List Op} (hr : run step (VmState.init pages slots mem device inode heap) ops = some s)
    (hclean : (∀ op ∈ ops, plain op = true) ∨ CleanCurrent s) {r : Replacement}
    {race : List RaceOp} {c : Race}
    (hsettled : Along (raceStep r) LoadsSettled (.init s) race)
    (hrace : run (raceStep r) (.init s) race = some c) {d : PageData} (hd : c.loaded = some d) :
    ∃ ev, c.phase.evicted = some ev ∧ d = s.mem ev.kpage := by
  obtain ⟨D, ho⟩ := slotsOwned_run hr
  have hclean : CleanCurrent s := hclean.elim (fun h => (represents_run h hr).cleanCurrent) id
  have hsafe : RaceSafe r s c := run_preserves_along (P := RaceSafe r s)
    (fun _ _ _ h hop hs => h.step (consistent_run hr) ho hclean hop hs)
    ⟨fun _ => .start, fun d hd => (by cases hd)⟩ hsettled hrace
  exact hsafe.loaded d hd

private theorem phase_raceStep {c c' : Race}
    (h : raceStep r c .evict = some c') : ∃ vm, evictStep r c.vm c.phase = some (c'.phase, vm) := by
  obtain ⟨⟨phase, vm⟩, hstep, hc⟩ := Option.bind_eq_some_iff.mp h
  cases hc
  exact ⟨vm, hstep⟩

private theorem along_load_after_write (r : Replacement) (l : PageLoad) (s : VmState) :
    Along (raceStep r) LoadsSettled (.init s) [.evict, .evict, .evict, .load l] := by
  refine ⟨trivial, fun c1 h1 => ⟨trivial, fun c2 h2 => ⟨trivial, fun c3 h3 => ⟨?_, fun _ _ => trivial⟩⟩⟩⟩
  obtain ⟨_, h1⟩ := phase_raceStep h1
  obtain ⟨_, h2⟩ := phase_raceStep h2
  obtain ⟨_, h3⟩ := phase_raceStep h3
  rcases evictStep_phase h1 with ⟨-, ev, hp⟩ | ⟨_, hp, -⟩ | ⟨_, hp, -⟩
  · rcases evictStep_phase h2 with ⟨hp', -⟩ | ⟨_, -, hp' | hp'⟩ | ⟨_, hp', -⟩
    · cases hp.symm.trans hp'
    · rcases evictStep_phase h3 with ⟨hp'', -⟩ | ⟨_, hp'', -⟩ | ⟨ev, -, hp''⟩
      · cases hp'.symm.trans hp''
      · cases hp'.symm.trans hp''
      · exact ⟨ev, .inl hp''⟩
    · rw [hp'] at h3
      cases h3
    · cases hp.symm.trans hp'
  · cases hp
  · cases hp

/-- A page stored to is written out and loaded again. -/
theorem load_returns_evicted_bytes_afterWrite :
    ∃ s c d ev, run step (smallMachine 2 4)
        [.exec 0 (some 0) .clock, .call 0 (.store 0xbffff004 7)] = some s ∧
      run (raceStep .clock) (.init s) [.evict, .evict, .evict, .load (.fault .clock)] = some c ∧
      c.loaded = some d ∧ c.phase.evicted = some ev ∧ d = s.mem ev.kpage := by
  obtain ⟨d, hd⟩ := Option.isSome_iff_exists.mp
    (show ((run step (smallMachine 2 4)
        [.exec 0 (some 0) .clock, .call 0 (.store 0xbffff004 7)]).bind fun s =>
      (run (raceStep .clock) (.init s) [.evict, .evict, .evict, .load (.fault .clock)]).bind
        Race.loaded).isSome = true by decide +kernel)
  obtain ⟨s, hs, c, hc, hd⟩ := by simpa only [Option.bind_eq_some_iff] using hd
  obtain ⟨ev, hev, hmem⟩ := load_returns_evicted_bytes hs (.inl (by decide))
    (along_load_after_write .clock (.fault .clock) s) hc hd
  exact ⟨s, c, d, ev, hs, hc, hd, hev, hmem⟩

/-- A page stored to is touched before a slot is chosen for it, and the store is lost. -/
theorem store_lost_in_eviction :
    ∃ s c d ev, run step (smallMachine 2 4)
        [.exec 0 (some 0) .clock, .call 0 (.store 0xbffff004 7)] = some s ∧ CleanCurrent s ∧
      run (raceStep .clock) (.init s) [.evict, .load (.fault .clock)] = some c ∧
      c.loaded = some d ∧ c.phase.evicted = some ev ∧ d ≠ s.mem ev.kpage := by
  obtain ⟨d, hd⟩ := Option.isSome_iff_exists.mp
    (show ((run step (smallMachine 2 4)
        [.exec 0 (some 0) .clock, .call 0 (.store 0xbffff004 7)]).bind fun s =>
      (run (raceStep .clock) (.init s) [.evict, .load (.fault .clock)]).bind fun c =>
      c.loaded.bind fun d => c.phase.evicted.bind fun ev =>
        if d ⟨4, by decide⟩ ≠ s.mem ev.kpage ⟨4, by decide⟩ then some d else none).isSome = true by decide +kernel)
  obtain ⟨s, hs, c, hc, d', hd', ev, hev, hne⟩ := by simpa only [Option.bind_eq_some_iff] using hd
  have hclean := (represents_run (by decide) hs).cleanCurrent
  refine ⟨s, c, d', ev, hs, hclean, hc, hd', hev, fun heq => ?_⟩
  simp [heq] at hne

end Pintos.Vm

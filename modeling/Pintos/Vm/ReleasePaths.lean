import Pintos.Vm.Paths

/-!
# Unmapping and process exit as paths of effects

`mmap_unmap`, `mmap_map` with its rollback, and the end of a process. Entries that are left
are as they were before, so the slots given up on the way are described in the state before.
-/

namespace Pintos.Vm

open Pintos.Base Pintos.Threads Pintos.Userprog Pintos.Lib Pintos.Filesys

variable {addr : Addr} {V : Addr → Prop} {L : List Nat} {d n pages : Nat} {pd : PageDir} {p : Pid} {e : SptEntry}
  {P : SptEntry → Prop} {i : SpteAddr}

variable {fl : Flight} {s t u : VmState}

/-- Entries have ended, and those that are left, and their frames, are unchanged and have got
no slot. -/
structure Shrinks (s t : VmState) : Prop where
  spt : ∀ p i, i ∈ t.spt p → i ∈ s.spt p
  spte : ∀ i e, t.spte i = some e → s.spte i = some e
  frame : ∀ f fr, t.frame f = some fr → s.frame f = some fr
  slot : ∀ i n, slotOf t.swapLog i = some n → slotOf s.swapLog i = some n

theorem Shrinks.trans (h : Shrinks s t) (h' : Shrinks t u) : Shrinks s u :=
  ⟨fun p i hi => h.spt p i (h'.spt p i hi), fun i e he => h.spte i e (h'.spte i e he),
    fun f fr hf => h.frame f fr (h'.frame f fr hf), fun i n hn => h.slot i n (h'.slot i n hn)⟩

theorem SameMemory.shrinks (h : SameMemory s t) : Shrinks s t :=
  ⟨fun p i hi => by rwa [h.spt] at hi, fun i e he => by rwa [h.spte] at he,
    fun f fr hf => by rwa [h.frame] at hf, fun i n hn => by rwa [h.swapLog] at hn⟩

private theorem slotOf_free {log : List SwapEvent} {slot : Nat}
    (h : slotOf (.free slot :: log) i = some n) : slotOf log i = some n := by
  simp only [slotOf] at h
  split at h
  · cases h
  · exact h

private theorem shrinks_entry
    (hspt : t.spt = Function.update s.spt p ((s.spt p).erase i))
    (hspte : t.spte = Function.update s.spte i none)
    (hframe : t.frame = s.frame ∨ ∃ v, t.frame = Function.update s.frame v none)
    (hlog : ∀ j n, slotOf t.swapLog j = some n → slotOf s.swapLog j = some n) : Shrinks s t := by
  refine ⟨fun q j hj => ?_, fun j e he => ?_, fun f fr hf => ?_, hlog⟩
  · rw [hspt] at hj
    by_cases hqp : q = p
    · subst hqp
      exact List.mem_of_mem_erase (by simpa using hj)
    · simpa [hqp] using hj
  · rw [hspte] at he
    by_cases hji : j = i
    · simp [hji] at he
    · simpa [hji] using he
  · rcases hframe with hsame | ⟨v, hupd⟩
    · rwa [hsame] at hf
    · rw [hupd] at hf
      by_cases hfv : f = v
      · simp [hfv] at hf
      · simpa [hfv] using hf

private theorem EndEffect.shrinks
    (h : EndEffect p i e s L t) : Shrinks s t := by
  cases h with
  | remove _ _ hm =>
    refine Shrinks.trans ?_ hm.shrinks
    exact shrinks_entry rfl rfl (.inl rfl) fun _ _ h => h
  | removeFree _ _ hm =>
    refine Shrinks.trans ?_ hm.shrinks
    exact shrinks_entry rfl rfl (.inl rfl) fun _ _ => slotOf_free
  | dispose _ _ _ _ hm =>
    refine Shrinks.trans ?_ hm.shrinks
    exact shrinks_entry rfl (Function.update_idem ..) (.inr ⟨_, rfl⟩) fun _ _ h => h
  | disposeFree _ _ _ _ _ hm =>
    refine Shrinks.trans ?_ hm.shrinks
    exact shrinks_entry rfl (Function.update_idem ..) (.inr ⟨_, rfl⟩) fun _ _ => slotOf_free

private theorem EndEffect.label
    (h : EndEffect p i e s L t) (hn : n ∈ L) : slotOf s.swapLog i = some n := by
  cases h with
  | remove | dispose => exact Option.mem_toList.mp hn
  | removeFree | disposeFree => cases hn

/-- A path on which entries of `p` end, at addresses in `V` only; the slots given up are those
of entries with `P`. -/
structure Released (p : Pid) (V : Addr → Prop) (P : SptEntry → Prop) (s t : VmState) :
    Prop where
  path : ∃ L, EffectPath (.idle, s) L (.idle, t) ∧ ∀ n ∈ L, ∃ i e, i ∈ s.spt p ∧
    s.spte i = some e ∧ P e ∧ slotOf s.swapLog i = some n
  shrinks : Shrinks s t
  kept : ∀ q i e, i ∈ s.spt q → s.spte i = some e → q ≠ p ∨ ¬ V e.upage →
    i ∈ t.spt q ∧ t.spte i = some e

private theorem SameMemory.released (h : SameMemory s t) :
    Released p V P s t :=
  ⟨⟨[], h.path .idle, by simp⟩, h.shrinks, fun _ _ _ hi he _ => ⟨h.spt ▸ hi, h.spte ▸ he⟩⟩

private theorem Released.trans (h : Released p V P s t)
    (h' : Released p V P t u) : Released p V P s u := by
  obtain ⟨L, hpath, hL⟩ := h.path
  obtain ⟨L', hpath', hL'⟩ := h'.path
  refine ⟨⟨L' ++ L, hpath.trans hpath', fun n hn => ?_⟩, h.shrinks.trans h'.shrinks,
    fun q i e hi he hV => ?_⟩
  · rcases List.mem_append.mp hn with hn | hn
    · obtain ⟨i, e, hi, he, hP, hslot⟩ := hL' n hn
      exact ⟨i, e, h.shrinks.spt p i hi, h.shrinks.spte i e he, hP, h.shrinks.slot i n hslot⟩
    · exact hL n hn
  · obtain ⟨hi', he'⟩ := h.kept q i e hi he hV
    exact h'.kept q i e hi' he' hV

private theorem Released.mono {W : Addr → Prop} {Q : SptEntry → Prop} (hVW : ∀ a, V a → W a)
    (hPQ : ∀ e, P e → Q e) (h : Released p V P s t) : Released p W Q s t := by
  obtain ⟨L, hpath, hL⟩ := h.path
  refine ⟨⟨L, hpath, fun n hn => ?_⟩, h.shrinks,
    fun q i e hi he hW => h.kept q i e hi he (hW.imp_right (mt (hVW _)))⟩
  obtain ⟨i, e, hi, he, hP, hslot⟩ := hL n hn
  exact ⟨i, e, hi, he, hPQ e hP, hslot⟩

theorem Released.consistent (hr : Released p V P s t)
    (h : Consistent .idle s) : Consistent .idle t := by
  obtain ⟨L, hpath, -⟩ := hr.path
  exact hpath.consistent h

/-- The end of an entry leaves every other entry where it is. -/
private theorem EndEffect.kept {q : Pid} {j : SpteAddr} (h : EndEffect p i e s L t)
    (hji : j ≠ i) (hj : j ∈ s.spt q) : j ∈ t.spt q ∧ t.spte j = s.spte j := by
  have herased : j ∈ Function.update s.spt p ((s.spt p).erase i) q := by
    by_cases hqp : q = p
    · subst hqp
      simpa using (List.mem_erase_of_ne hji).mpr hj
    · simpa [hqp] using hj
  cases h with
  | remove _ _ hm | removeFree _ _ hm | dispose _ _ _ _ hm | disposeFree _ _ _ _ _ hm =>
    rw [hm.spt, hm.spte]
    refine ⟨herased, ?_⟩
    simp [VmState.entryFreed, VmState.slotFreed, VmState.poolFreed, VmState.unmapped, hji]

theorem EndEffect.released (h : EndEffect p i e s L t) (hc : Consistent .idle s)
    (hi : i ∈ s.spt p) (he : s.spte i = some e) (hV : V e.upage) (hP : L ≠ [] → P e) :
    Released p V P s t := by
  refine ⟨⟨L, (Effect.finish hi he h).path, fun _ hn => ⟨i, e, hi, he,
    hP (List.ne_nil_of_mem hn), h.label hn⟩⟩, h.shrinks, fun q j e' hj he' hor => ?_⟩
  have hji : j ≠ i := by
    rintro rfl
    cases he.symm.trans he'
    exact hor.elim (fun hqp => hqp (hc.spt_disjoint q p j hj hi)) fun hn => hn hV
  rw [← he']
  exact h.kept hji hj

/-! ## Ending one entry -/

private theorem freeSlotOf_some (h : freeSlotOf e s = some t) :
    (e.type = .swap ∧ e.swapSlot ≠ 0 ∧ t = s.slotFreed e.swapSlot) ∨
      ((e.type ≠ .swap ∨ e.swapSlot = 0) ∧ t = s) := by
  unfold freeSlotOf at h
  split at h
  · next hc =>
    unfold swapFree at h
    split at h
    · cases h
      exact .inl ⟨hc.1, hc.2, rfl⟩
    · cases h
  · next hc =>
    cases h
    exact .inr ⟨by grind, rfl⟩

/-- A frame unmapped and freed, then the slot of its entry, then the entry. -/
private theorem dispose_effect {v : FrameAddr} {s1 s2 : VmState} (hev : e.frame = some v) (hpd : s.pagedir p = some pd)
    (hm : SameMemory { s with spt := Function.update s.spt p ((s.spt p).erase i) } s1)
    (hfree : frameFree v (s1.setPagedir p (pagedirClearPage pd e.upage)) = some s2)
    (hslot : freeSlotOf e s2 = some t) :
    ∃ L, EndEffect p i e s L (t.freeSpte i) := by
  obtain ⟨fr, hfr, rfl⟩ := frameFree_some hfree
  have hv : s.frame v = some fr := by rw [← hfr]; exact (congrFun hm.frame v).symm
  rcases freeSlotOf_some hslot with ⟨hty, hs0, rfl⟩ | ⟨hk, rfl⟩
  · refine ⟨_, .disposeFree (d := fun _ => 0xcc) hv hev hpd hty hs0 ?_⟩
    constructor <;> simp [VmState.freeSpte, VmState.slotFreed, VmState.poolFreed,
      VmState.setPagedir, VmState.entryFreed, VmState.unmapped, hm.spte, hm.frame, hm.frameTable,
      hm.spt, hm.pagedir, hm.mem, hm.userPool, hm.swapBitmap, hm.swapDevice, hm.swapLog]
  · refine ⟨_, .dispose (d := fun _ => 0xcc) hv hev hpd hk ?_⟩
    constructor <;> simp [VmState.freeSpte, VmState.poolFreed,
      VmState.setPagedir, VmState.entryFreed, VmState.unmapped, hm.spte, hm.frame, hm.frameTable,
      hm.spt, hm.pagedir, hm.mem, hm.userPool, hm.swapBitmap, hm.swapDevice, hm.swapLog]

/-- The slot of an entry that is not resident freed as its fields show it, then the entry. -/
private theorem remove_effect (hf : e.frame = none)
    (hslot : freeSlotOf e { s with spt := Function.update s.spt p ((s.spt p).erase i) } = some t) :
    ∃ L, EndEffect p i e s L (t.freeSpte i) := by
  rcases freeSlotOf_some hslot with ⟨hty, -, rfl⟩ | ⟨hk, rfl⟩
  · exact ⟨_, .removeFree hf hty (.refl _)⟩
  · exact ⟨_, .remove hf hk (.refl _)⟩

private theorem freeSlotOf_kept (h : freeSlotOf e s = some t) :
    FilesKept s t ∧ t.spt = s.spt := by
  rcases freeSlotOf_some h with ⟨-, -, rfl⟩ | ⟨-, rfl⟩
  · exact ⟨.of_eq rfl rfl rfl rfl rfl, rfl⟩
  · exact ⟨.refl _, rfl⟩

theorem sptDestroyFunc_effect (hd : sptDestroyFunc p i
      { s with spt := Function.update s.spt p ((s.spt p).erase i) } = some t) :
    ∃ e L, s.spte i = some e ∧ EndEffect p i e s L t ∧ FilesKept s t ∧
      t.spt p = (s.spt p).erase i := by
  simp only [sptDestroyFunc, Option.bind_eq_bind, Option.bind_eq_some_iff,
    Option.some.injEq] at hd
  obtain ⟨e, he, s1, hfree, s2, hslot, rfl⟩ := hd
  obtain ⟨hkept, hspt⟩ := freeSlotOf_kept hslot
  unfold freeFrameOf at hfree
  split at hfree
  · next hf =>
    cases hfree
    obtain ⟨L, heff⟩ := remove_effect hf hslot
    refine ⟨e, L, he, heff, { hkept with }, ?_⟩
    simp [VmState.freeSpte, hspt]
  · next v hev =>
    simp only [Option.bind_eq_bind, Option.bind_eq_some_iff] at hfree
    obtain ⟨pd, hpd, hfree⟩ := hfree
    obtain ⟨L, heff⟩ := dispose_effect (t := s2) hev hpd (.refl _) hfree hslot
    obtain ⟨fr, -, rfl⟩ := frameFree_some hfree
    refine ⟨e, L, he, heff, { hkept with }, ?_⟩
    simp [VmState.freeSpte, VmState.poolFreed, VmState.setPagedir, hspt]

/-! ## `mmap_unmap` -/

theorem writeBack_same {page : PageData} (h : writeBack e page s = some t) :
    SameMemory s t := by
  simp only [writeBack, Option.bind_eq_bind, Option.bind_eq_some_iff] at h
  obtain ⟨f, -, ⟨n, s1⟩, hw, hs⟩ := h
  cases hs
  exact sameMemory_fileWriteAt hw

private theorem mmapCopySlot_same (h : mmapCopySlot e s = some t) :
    SameMemory s t := by
  unfold mmapCopySlot at h
  split at h
  · rw [Option.bind_eq_some_iff] at h
    obtain ⟨page, -, hw⟩ := h
    exact (sameMemory_takeHeap s).trans (writeBack_same hw)
  · cases h
    exact sameMemory_takeHeap s

/-- An entry whose slot `mmap_unmap` may forget: resident, or not marked as being in swap. -/
def Forgets (e : SptEntry) : Prop := e.frame ≠ none ∨ e.type ≠ .swap

private theorem Consistent.mmapRelease_effect (h : Consistent .idle s) (hi : i ∈ s.spt p) (he : s.spte i = some e)
    (hr : mmapRelease e { s with spt := Function.update s.spt p ((s.spt p).erase i) } = some t) :
    ∃ L, EndEffect p i e s L (t.freeSpte i) ∧ (L ≠ [] → Forgets e) := by
  unfold mmapRelease at hr
  split at hr
  · next v hev =>
    simp only [mmapReleaseFrame, Option.bind_eq_bind, Option.bind_eq_some_iff] at hr
    obtain ⟨fr, -, ⟨q, pd⟩, howner, s1, hwb, s2, hfree, hslot⟩ := hr
    obtain ⟨hq, hpd⟩ := ownerPagedir_some howner
    cases hq.symm.trans (h.resident p i e v hi he hev).1
    have hm : SameMemory { s with spt := Function.update s.spt p ((s.spt p).erase i) } s1 := by
      unfold mmapWriteBack at hwb
      split at hwb
      · exact writeBack_same hwb
      · cases hwb
        exact .refl _
    obtain ⟨L, heff⟩ := dispose_effect (s := s) hev hpd hm hfree hslot
    exact ⟨L, heff, fun _ => .inl (by simp [hev])⟩
  · next hf =>
    split at hr
    · next hty =>
      rw [Option.bind_eq_some_iff] at hr
      obtain ⟨s1, hcopy, hfree⟩ := hr
      have hm := mmapCopySlot_same hcopy
      unfold swapFree at hfree
      split at hfree
      · cases hfree
        refine ⟨[], .removeFree hf hty ?_, by simp⟩
        constructor <;> simp [VmState.freeSpte, VmState.slotFreed, VmState.entryFreed, hm.spte,
          hm.frame, hm.frameTable, hm.spt, hm.pagedir, hm.mem, hm.userPool, hm.swapBitmap,
          hm.swapDevice, hm.swapLog]
      · cases hfree
    · next hty =>
      cases hr
      exact ⟨_, .remove hf (.inl hty) (.refl _), fun _ => .inr hty⟩

theorem Consistent.mmapUnmapPage_released (h : Consistent .idle s) {upage : Addr}
    (hr : mmapUnmapPage p upage s = some t) :
    Released p (· = upage) (fun e => Forgets e ∧ e.upage = upage) s t := by
  unfold mmapUnmapPage sptDelete at hr
  cases hfind : sptFind s p upage with
  | none =>
    simp only [hfind] at hr
    cases hr
    exact (SameMemory.refl s).released
  | some i =>
    obtain ⟨hi, e, he, hup⟩ := sptFind_some hfind
    simp only [hfind, he, Option.bind_eq_bind, Option.bind_some, Option.bind_eq_some_iff,
      Option.some.injEq] at hr
    obtain ⟨s1, hrel, rfl⟩ := hr
    obtain ⟨L, heff, hL⟩ := h.mmapRelease_effect hi he hrel
    exact heff.released h hi he hup fun hne => ⟨hL hne, hup⟩

/-- An entry that `mmap_unmap` of mapping `mapid` of process `p` visits. -/
def Maps (s : VmState) (p : Pid) (mapid : Int) (e : SptEntry) : Prop :=
  ∃ m ∈ s.mmapList p, (m.mapid : Int) = mapid ∧
    ∃ n < mmapPageCount m.size, e.upage = mmapPage m.addr n

private theorem unmapRange_released {l : List Nat}
    (hl : ∀ n ∈ l, n < pages) (h : Consistent .idle s)
    (hr : run (fun s n => mmapUnmapPage p (mmapPage addr n) s) s l = some t) :
    Released p (fun a => ∃ n < pages, a = mmapPage addr n)
      (fun e => Forgets e ∧ ∃ n < pages, e.upage = mmapPage addr n) s t := by
  induction l generalizing s with
  | nil =>
    cases hr
    exact (SameMemory.refl _).released
  | cons n l ih =>
    obtain ⟨m, hm, hrest⟩ := run_cons_some hr
    have hn := hl n List.mem_cons_self
    have hone := (h.mmapUnmapPage_released hm).mono
      (W := fun a => ∃ n < pages, a = mmapPage addr n)
      (Q := fun e => Forgets e ∧ ∃ n < pages, e.upage = mmapPage addr n)
      (fun a ha => ⟨n, hn, ha⟩) fun e he => ⟨he.1, n, hn, he.2⟩
    exact hone.trans (ih (fun j hj => hl j (List.mem_cons_of_mem n hj)) (hone.consistent h) hrest)

theorem Consistent.mmapUnmap_released (h : Consistent .idle s) {mapid : Int}
    (hr : mmapUnmap p mapid s = some t) :
    Released p (fun a => ∃ m, (s.mmapList p).find? (fun m => (m.mapid : Int) == mapid) = some m ∧
      ∃ n < mmapPageCount m.size, a = mmapPage m.addr n)
      (fun e => Forgets e ∧ Maps s p mapid e) s t := by
  unfold mmapUnmap at hr
  split at hr
  · cases hr
    exact (SameMemory.refl _).released
  · next m hfind =>
    simp only [Option.bind_eq_bind, Option.bind_eq_some_iff] at hr
    obtain ⟨s1, hrun, s2, hclose, hs⟩ := hr
    cases hs
    have hid : (m.mapid : Int) = mapid := by simpa using List.find?_some hfind
    have hrange := unmapRange_released (fun _ => List.mem_range.mp) h hrun
    have hmaps := hrange.mono (W := fun a => ∃ m,
        (s.mmapList p).find? (fun m => (m.mapid : Int) == mapid) = some m ∧
          ∃ n < mmapPageCount m.size, a = mmapPage m.addr n)
      (Q := fun e => Forgets e ∧ Maps s p mapid e) (fun a ha => ⟨m, hfind, ha⟩)
      fun e he => ⟨he.1, m, List.mem_of_find?_eq_some hfind, hid, he.2⟩
    have hm := sameMemory_fileClose hclose
    exact hmaps.trans (SameMemory.released { hm with })

/-! ## `mmap_map` -/

/-- Pages of a mapping that is being made: not resident and without a slot. -/
private def Unused (p : Pid) (addr : Addr) (n : Nat) (s : VmState) : Prop :=
  ∀ i ∈ s.spt p, ∀ e, s.spte i = some e → (∃ j < n, e.upage = mmapPage addr j) →
    e.frame = none ∧ e.type ≠ .swap ∧ slotOf s.swapLog i = none

private theorem Unused.shrinks (h : Unused p addr n s)
    (hs : Shrinks s t) : Unused p addr n t := by
  intro i hi e he hj
  obtain ⟨hf, ht, hslot⟩ := h i (hs.spt p i hi) e (hs.spte i e he) hj
  refine ⟨hf, ht, ?_⟩
  by_contra hne
  obtain ⟨x, hx⟩ := Option.ne_none_iff_exists'.mp hne
  simp [hs.slot i x hx] at hslot

private theorem mmapRollback_path {l : List Nat}
    (hl : ∀ j ∈ l, j < n) (h : Consistent .idle s) (hun : Unused p addr n s) :
    EffectPath (.idle, s) []
      (.idle, l.foldl (fun s j => mmapRollbackPage p (mmapPage addr j) s) s) := by
  induction l generalizing s with
  | nil => exact .refl _
  | cons j l ih =>
    have hl' : ∀ j ∈ l, j < n := fun k hk => hl k (List.mem_cons_of_mem j hk)
    rw [List.foldl_cons]
    cases hfind : sptFind s p (mmapPage addr j) with
    | none =>
      have hsame : mmapRollbackPage p (mmapPage addr j) s = s := by
        simp only [mmapRollbackPage, sptDelete, hfind]
      rw [hsame]
      exact ih hl' h hun
    | some i =>
      obtain ⟨hi, e, he, hup⟩ := sptFind_some hfind
      have hstep : mmapRollbackPage p (mmapPage addr j) s = s.entryFreed p i := by
        simp only [mmapRollbackPage, sptDelete, hfind]
        rfl
      obtain ⟨hf, ht, hslot⟩ := hun i hi e he ⟨j, hl j List.mem_cons_self, hup⟩
      have heff : EndEffect p i e s [] (s.entryFreed p i) := by
        simpa [hslot] using EndEffect.remove (p := p) (i := i) (s := s) hf (.inl ht) (.refl _)
      rw [hstep]
      exact (Effect.finish hi he heff).path.trans
        (ih hl' (heff.consistent hi he h) (hun.shrinks heff.shrinks))

/-- The `pages` pages from `addr` on are user pages, all different. -/
structure Range (addr : Addr) (pages : Nat) : Prop where
  toNat : ∀ n < pages, (mmapPage addr n).toNat = addr.toNat + n * 4096
  user : ∀ n < pages, isUserVaddr (mmapPage addr n) = true
  ofs : pgOfs addr = 0

theorem Range.pgOfs_mmapPage (h : Range addr pages)
    (hn : n < pages) : pgOfs (mmapPage addr n) = 0 := by
  have hofs := h.ofs
  rw [pgOfs_eq_zero_iff] at hofs ⊢
  rw [h.toNat n hn]
  omega

theorem Range.ne {m : Nat} (h : Range addr pages) (hn : n < pages)
    (hm : m < pages) (hne : n ≠ m) : mmapPage addr n ≠ mmapPage addr m := by
  intro heq
  have := congrArg BitVec.toNat heq
  rw [h.toNat n hn, h.toNat m hm] at this
  omega

private theorem inserted_cases {j : SpteAddr} {e' : SptEntry} (hi : s.spte i = none)
    (h : Consistent fl s) (hj : j ∈ Function.update s.spt p (i :: s.spt p) p)
    (he : (s.newSpte i e).spte j = some e') :
    (j = i ∧ e' = e) ∨ (j ≠ i ∧ j ∈ s.spt p ∧ s.spte j = some e') := by
  rw [Function.update_self] at hj
  rcases List.mem_cons.mp hj with rfl | hj'
  · exact .inl ⟨rfl, by simpa [VmState.newSpte, eq_comm] using he⟩
  · have hji : j ≠ i := by
      rintro rfl
      obtain ⟨_, he', -⟩ := h.entry p j hj'
      cases hi.symm.trans he'
    exact .inr ⟨hji, hj', by simpa [VmState.newSpte, hji] using he⟩

private theorem Consistent.mmapInsert_path {m : MmapEntry} {left : Nat}
    {ok : Bool} (hrange : Range m.addr pages) (hleft : n + left = pages)
    (h : Consistent .idle s) (hp : (s.pagedir p).isSome) (hun : Unused p m.addr n s)
    (hfree : ∀ j, n ≤ j → j < pages → ∀ i ∈ s.spt p, ∀ e, s.spte i = some e →
      e.upage ≠ mmapPage m.addr j)
    (hi : mmapInsert p m left n s = (ok, t)) : EffectPath (.idle, s) [] (.idle, t) := by
  induction left generalizing s n with
  | zero =>
    cases hi
    exact .refl _
  | succ left ih =>
    have hquiet := (takeHeap_path .idle s).effectPath
    have h1 := hquiet.consistent h
    have hn : n < pages := by omega
    unfold mmapInsert at hi
    split at hi
    · cases hi
      exact hquiet.trans (mmapRollback_path (fun _ => List.mem_range.mp) h1 hun)
    · next i hmalloc =>
      have hfresh : s.takeHeap.2.spte i = none := spte_of_mallocSpte (s := s) hmalloc
      have hnone : sptFind s.takeHeap.2 p (mmapPage m.addr n) = none := by
        by_contra hne
        obtain ⟨j, hj⟩ := Option.ne_none_iff_exists'.mp hne
        obtain ⟨hmem, e, he, hup⟩ := sptFind_some hj
        exact hfree n le_rfl hn j hmem e he hup
      have heq := h1.sptInsertPage_eq (e := mmapSpte p m n) (p := p) hfresh hnone
      have hmap := Effect.map (e := mmapSpte p m n) hfresh hp
        ⟨hrange.pgOfs_mmapPage hn, hrange.user n hn⟩ (hfree n le_rfl hn) rfl
        ⟨by simp [mmapSpte], rfl⟩ (.refl _)
      rw [VmState.mallocSpte, heq] at hi
      refine (hquiet.trans hmap.path).trans
        (ih (n := n + 1) (by omega) (hmap.consistent h1) hp ?_ ?_ hi)
      · rintro j hj e he ⟨k, hk, hup⟩
        rcases inserted_cases hfresh h1 hj he with ⟨rfl, rfl⟩ | ⟨hji, hj', he'⟩
        · exact ⟨rfl, by simp [mmapSpte], by simp [VmState.newSpte, slotOf]⟩
        · have hkn : k < n := by
            refine lt_of_le_of_ne (Nat.lt_succ_iff.mp hk) ?_
            rintro rfl
            exact hfree k le_rfl hn j hj' e he' hup
          obtain ⟨hf, ht, hslot⟩ := hun j hj' e he' ⟨k, hkn, hup⟩
          refine ⟨hf, ht, ?_⟩
          rw [VmState.newSpte, slotOf, if_neg hji.symm]
          exact hslot
      · intro k hk hk' j hj e he
        rcases inserted_cases hfresh h1 hj he with ⟨-, rfl⟩ | ⟨-, hj', he'⟩
        · exact hrange.ne hn hk' (by omega)
        · exact hfree k (by omega) hk' j hj' e he'

theorem range_of_mmapRangeFree
    (hofs : pgOfs addr = 0) (hfree : mmapRangeFree s p addr pages = true) : Range addr pages := by
  simp only [mmapRangeFree, List.all_eq_true, List.mem_range, Bool.and_eq_true] at hfree
  refine ⟨fun n hn => ?_, fun n hn => (hfree n hn).1, hofs⟩
  -- A page below `PHYS_BASE` is followed by one that has not wrapped around.
  induction n with
  | zero => simp [mmapPage]
  | succ n ih =>
    have huser := (hfree n (by omega)).1
    have hprev := ih (by omega)
    rw [isUserVaddr_iff, hprev] at huser
    simp only [mmapPage, PGSIZE, BitVec.toNat_add, BitVec.toNat_ofNat]
    omega

private theorem Consistent.mmapCreate_path (h : Consistent .idle s) {file : FileAddr} {size : Nat} {o : Option Nat} (hp : (s.pagedir p).isSome)
    (hofs : pgOfs addr = 0) (hfree : mmapRangeFree s p addr (mmapPageCount size) = true)
    (hm : mmapCreate p file addr size s = some (o, t)) : EffectPath (.idle, s) [] (.idle, t) := by
  have hrange := range_of_mmapRangeFree hofs hfree
  have hnone : ∀ n < mmapPageCount size, sptFind s p (mmapPage addr n) = none := by
    intro n hn
    simp only [mmapRangeFree, List.all_eq_true, List.mem_range, Bool.and_eq_true,
      Option.isNone_iff_eq_none] at hfree
    have hlookup := (hfree n hn).2
    rwa [sptLookup, pgRoundDown_of_pgOfs_eq_zero (hrange.pgOfs_mmapPage hn)] at hlookup
  unfold mmapCreate at hm
  split at hm
  · cases hm
    exact (sameMemory_takeHeap s).path .idle
  · simp only [Option.bind_eq_bind, Option.bind_eq_some_iff] at hm
    obtain ⟨⟨o', s1⟩, hreopen, hm⟩ := hm
    have hsame := (sameMemory_takeHeap s).trans (sameMemory_fileReopen hreopen)
    cases o' with
    | none =>
      cases hm
      exact hsame.path .idle
    | some mfile =>
      dsimp only at hm
      have hinsert : ∀ (m : MmapEntry) (ok : Bool) (s2 : VmState), m.addr = addr → m.size = size →
          mmapInsert p m (mmapPageCount size) 0
            { s1 with nextMapid := Function.update s1.nextMapid p (s1.nextMapid p + 1) } =
            (ok, s2) → EffectPath (.idle, s) [] (.idle, s2) := by
        rintro m ok s2 rfl rfl hins
        have hsame' : SameMemory s
            { s1 with nextMapid := Function.update s1.nextMapid p (s1.nextMapid p + 1) } :=
          { hsame with }
        refine (hsame'.path .idle).trans ((h.congr hsame').mmapInsert_path hrange
          (Nat.zero_add _) (by rw [hsame'.pagedir]; exact hp) ?_ ?_ hins)
        · rintro i - e - ⟨j, hj, -⟩
          cases hj
        · rintro j - hj i hi e he
          rw [hsame'.spt] at hi
          rw [hsame'.spte] at he
          exact sptFind_none (hnone j hj) i hi e he
      split at hm
      · next hins =>
        cases hm
        refine (hinsert _ _ _ rfl rfl hins).trans (SameMemory.path ?_ .idle)
        exact ⟨rfl, rfl, rfl, rfl, rfl, rfl, rfl, rfl, rfl, rfl⟩
      · next hins =>
        rw [Option.map_eq_some_iff] at hm
        obtain ⟨s3, hclose, heq⟩ := hm
        cases heq
        exact (hinsert _ _ _ rfl rfl hins).trans ((sameMemory_fileClose hclose).path .idle)

theorem Consistent.mmapMap_path (h : Consistent .idle s) {fd : Int}
    {o : Option Nat} (hp : (s.pagedir p).isSome) (hm : mmapMap p fd addr s = some (o, t)) :
    EffectPath (.idle, s) [] (.idle, t) := by
  unfold mmapMap at hm
  split at hm
  · cases hm
    exact .refl _
  · next file _ =>
    split at hm
    · next hok =>
      simp only [Option.bind_eq_bind, Option.bind_eq_some_iff] at hm
      obtain ⟨size, -, hm⟩ := hm
      split at hm
      · next hcond =>
        have hofs : pgOfs addr = 0 := by simp [mmapAddrOk] at hok; grind
        exact h.mmapCreate_path hp hofs hcond.2 hm
      · cases hm
        exact .refl _
    · cases hm
      exact .refl _

/-! ## The end of a process -/

private theorem Consistent.munmapAll_released {fuel : Nat} (h : Consistent .idle s)
    (hr : munmapAll p fuel s = some t) : Released p (fun _ => True) (fun _ => True) s t := by
  induction fuel generalizing s with
  | zero =>
    unfold munmapAll at hr
    split at hr
    · cases hr
      exact (SameMemory.refl _).released
    · cases hr
  | succ fuel ih =>
    unfold munmapAll at hr
    split at hr
    · cases hr
      exact (SameMemory.refl _).released
    · rw [Option.bind_eq_some_iff] at hr
      obtain ⟨s1, hun, hrest⟩ := hr
      have hone := (h.mmapUnmap_released hun).mono (W := fun _ => True) (Q := fun _ => True)
        (fun _ _ => trivial) fun _ _ => trivial
      exact hone.trans (ih (hone.consistent h) hrest)

theorem sameMemory_closeExecutable (h : closeExecutable p s = some t) :
    SameMemory s t := by
  unfold closeExecutable at h
  split at h
  · cases h
    exact .refl _
  · rw [Option.bind_eq_some_iff] at h
    obtain ⟨s1, hallow, hclose⟩ := h
    exact (sameMemory_fileAllowWrite hallow).trans (sameMemory_fileClose hclose)

private theorem sameMemory_closeFd {fd : Nat} (h : closeFd p s fd = some t) :
    SameMemory s t := by
  unfold closeFd at h
  split at h
  · cases h
    exact .refl _
  · split at h
    · cases h
      exact .refl _
    · rw [Option.map_eq_some_iff] at h
      obtain ⟨s1, hclose, rfl⟩ := h
      exact (sameMemory_fileClose hclose).trans ⟨rfl, rfl, rfl, rfl, rfl, rfl, rfl, rfl, rfl, rfl⟩

/-- A path of ends of entries of `p` that leave files alone. -/
def EndPath (p : Pid) (s : VmState) (L : List Nat) (t : VmState) : Prop :=
  Base.Path (fun s L t => ∃ i e, i ∈ s.spt p ∧ s.spte i = some e ∧ EndEffect p i e s L t ∧
    FilesKept s t) s L t

private theorem EndPath.released (h : EndPath p s L t) (hc : Consistent .idle s) :
    Released p (fun _ => True) (fun _ => True) s t := by
  refine Base.Path.relates
    (Q := fun s t => Consistent .idle s → Released p (fun _ => True) (fun _ => True) s t)
    (fun s _ => (SameMemory.refl s).released) (fun h h' hc => ?_) ?_ h hc
  · exact (h hc).trans (h' ((h hc).consistent hc))
  · rintro s L t ⟨i, e, hi, he, heff, -⟩ hc
    exact heff.released hc hi he trivial fun _ => trivial

private theorem destroy_path {l : List SpteAddr} (hl : s.spt p = l)
    (hr : run (fun s i => sptDestroyFunc p i
      { s with spt := Function.update s.spt p ((s.spt p).erase i) }) s l = some t) :
    (∃ L, EndPath p s L t) ∧ t.spt p = [] := by
  induction l generalizing s with
  | nil =>
    cases hr
    exact ⟨⟨[], .refl⟩, hl⟩
  | cons i l ih =>
    obtain ⟨m, hm, hrest⟩ := run_cons_some hr
    obtain ⟨e, L, he, heff, hkept, hspt⟩ := sptDestroyFunc_effect hm
    have hi : i ∈ s.spt p := by simp [hl]
    obtain ⟨⟨L', hpath⟩, hnil⟩ := ih (hspt.trans (by simp [hl])) hrest
    exact ⟨⟨_, (Base.Path.single ⟨i, e, hi, he, heff, hkept⟩).trans hpath⟩, hnil⟩

theorem hashDestroy_path (h : hashDestroy p s = some t) :
    (∃ L, EndPath p s L t) ∧ t.spt p = [] :=
  destroy_path rfl h

/-- `process_exit` releases the entries of its process, all of them. -/
theorem Consistent.processExit_released (h : Consistent .idle s)
    (hx : processExit p s = some t) : Released p (fun _ => True) (fun _ => True) s t ∧ t.spt p = [] := by
  simp only [processExit, Option.bind_eq_bind, Option.bind_eq_some_iff] at hx
  obtain ⟨s1, hall, s2, hexec, s3, hfds, hdestroy⟩ := hx
  have hfds' : SameMemory s2 s3 :=
    run_preserves (fun _ _ _ hs hc => hs.trans (sameMemory_closeFd hc))
      (.refl s2) hfds
  obtain ⟨⟨L, hpath⟩, hnil⟩ := hashDestroy_path hdestroy
  have hquiet := (h.munmapAll_released hall).trans
    ((sameMemory_closeExecutable hexec).trans hfds').released
  exact ⟨hquiet.trans (hpath.released (hquiet.consistent h)), hnil⟩

private theorem toNat_pageAddr (hd : d < 768) (hn : n < 1024) :
    (pageAddr d n).toNat = d * 2 ^ 22 + n * 2 ^ 12 := by
  rw [pageAddr, BitVec.toNat_ofNat]
  omega

private theorem pdNo_pageAddr (hd : d < 768) (hn : n < 1024) :
    pdNo (pageAddr d n) = BitVec.ofNat 32 d := by
  apply BitVec.eq_of_toNat_eq
  rw [pdNo, BitVec.toNat_ushiftRight, toNat_pageAddr hd hn, BitVec.toNat_ofNat,
    Nat.shiftRight_eq_div_pow]
  omega

private theorem pgRoundDown_pageAddr (hd : d < 768) (hn : n < 1024) :
    pgRoundDown (pageAddr d n) = pageAddr d n := by
  refine pgRoundDown_of_pgOfs_eq_zero ((pgOfs_eq_zero_iff _).mpr ?_)
  rw [toNat_pageAddr hd hn]
  omega

private theorem getPage_of_mem_presentPages {k : KPage} (h : k ∈ presentPages pd) :
    ∃ u, pagedirGetPage pd u = some k := by
  simp only [presentPages, List.mem_flatMap, List.mem_range] at h
  obtain ⟨d, hd, hk⟩ := h
  split at hk
  · next ht =>
    simp only [List.mem_filterMap, List.mem_range] at hk
    obtain ⟨n, hn, hk⟩ := hk
    have hd' : d < 768 := hd
    refine ⟨pageAddr d n, ?_⟩
    rw [pagedirGetPage, lookupPage, pdNo_pageAddr hd' hn, if_pos ht, pgRoundDown_pageAddr hd' hn]
    exact hk
  · cases hk

private theorem Consistent.presentPages_of_not_resident (h : Consistent fl s)
    (hres : ∀ i ∈ s.spt p, ∀ e, s.spte i = some e → e.frame = none)
    (hpd : s.pagedir p = some pd) : presentPages pd = [] := by
  rw [List.eq_nil_iff_forall_not_mem]
  intro k hk
  obtain ⟨u, hu⟩ := getPage_of_mem_presentPages hk
  obtain ⟨i, e, hi, he, -, hframe⟩ := h.present p pd u hpd (by simp [hu])
  exact hframe (hres i hi e he)

theorem Consistent.presentPages_eq_nil (h : Consistent fl s)
    (hnil : s.spt p = []) (hpd : s.pagedir p = some pd) : presentPages pd = [] := by
  apply h.presentPages_of_not_resident _ hpd
  intro i hi
  simp [hnil] at hi

/-- The end of a process releases its entries and takes its page directory. -/
theorem Consistent.exitProcess_released (h : Consistent .idle s)
    (hx : exitProcess p s = some t) : Released p (fun _ => True) (fun _ => True) s t ∧ t.spt p = [] := by
  rw [exitProcess, Option.bind_eq_some_iff] at hx
  obtain ⟨s1, hexit, hfree⟩ := hx
  obtain ⟨hrel, hnil⟩ := h.processExit_released hexit
  unfold freePagedir at hfree
  split at hfree
  · cases hfree
    exact ⟨hrel, hnil⟩
  · next pd hpd =>
    rw [pagedirDestroy, (hrel.consistent h).presentPages_eq_nil hnil hpd] at hfree
    cases hfree
    have hdestroy : Released p (fun _ => True) (fun _ => True) s1
        { s1 with pagedir := Function.update s1.pagedir p none } :=
      ⟨⟨[], (Effect.destroy hnil (.refl _)).path, by simp⟩,
        ⟨fun _ _ h => h, fun _ _ h => h, fun _ _ h => h, fun _ _ h => h⟩,
        fun _ _ _ hi he _ => ⟨hi, he⟩⟩
    exact ⟨hrel.trans hdestroy, hnil⟩

end Pintos.Vm

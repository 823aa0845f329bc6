import Pintos.Vm.Paths

/-!
# What loading a page does to the other pages

A load may evict the page of another entry, if its frame is not pinned, and leaves the frames of
all other entries as they are. Nobody but the loader of a page pins its frame.
-/

namespace Pintos.Vm

open Pintos.Base Pintos.Threads Pintos.Userprog Pintos.Lib Pintos.Filesys

variable {upage : Addr} {ok pin : Bool} {flt : Fault} {f : FrameAddr} {o : Option SpteAddr}
  {p : Pid} {r : Replacement} {e : SptEntry}

variable {fl : Flight} {s t u : VmState} {i j : SpteAddr}

/-- Entry `j` has kept its frame, or has lost one that was not pinned. -/
def Spared (s t : VmState) (j : SpteAddr) : Prop :=
  ∀ e, s.spte j = some e → ∃ e', t.spte j = some e' ∧
    ((e'.frame = e.frame ∧ ∀ f fr, e.frame = some f → s.frame f = some fr → t.frame f = some fr) ∨
      (e'.frame = none ∧ ∀ f fr, e.frame = some f → s.frame f = some fr → fr.pinned = false))

private theorem Spared.of_eq (hspte : t.spte j = s.spte j)
    (hframe : ∀ f fr, s.frame f = some fr → t.frame f = some fr) : Spared s t j :=
  fun e he => ⟨e, hspte.trans he, .inl ⟨rfl, fun f fr _ => hframe f fr⟩⟩

private theorem Spared.trans (h : Spared s t j) (h' : Spared t u j) : Spared s u j := by
  intro e he
  obtain ⟨e1, he1, hkept | hlost⟩ := h e he
  · obtain ⟨e2, he2, hkept' | hlost'⟩ := h' e1 he1
    · refine ⟨e2, he2, .inl ⟨hkept'.1.trans hkept.1, fun f fr hf hfr => ?_⟩⟩
      exact hkept'.2 f fr (hkept.1.trans hf) (hkept.2 f fr hf hfr)
    · refine ⟨e2, he2, .inr ⟨hlost'.1, fun f fr hf hfr => ?_⟩⟩
      exact hlost'.2 f fr (hkept.1.trans hf) (hkept.2 f fr hf hfr)
  · obtain ⟨e2, he2, hkept' | hlost'⟩ := h' e1 he1
    · exact ⟨e2, he2, .inr ⟨hkept'.1.trans hlost.1, hlost.2⟩⟩
    · exact ⟨e2, he2, .inr ⟨hlost'.1, hlost.2⟩⟩

/-! ## Evictions -/

private theorem Leaves.spared {v : FrameAddr} {fr : Frame} {pd : PageDir}
    (h : Leaves s v fr i p e pd u) (hc : Consistent .idle s) (hv : s.frame v = some fr)
    (hi : i ∈ s.spt p) (he : s.spte i = some e) (hef : e.frame = some v)
    (hpin : fr.pinned = false) (j : SpteAddr) : Spared s u j := by
  have hother : ∀ e', j ≠ i → s.spte j = some e' → ∀ f gr, e'.frame = some f →
      s.frame f = some gr → Function.update s.frame v none f = some gr := by
    intro e' hji hj f gr hf hgr
    have hfv : f ≠ v := by
      rintro rfl
      obtain ⟨q, hq⟩ := hc.owned j e' hj
      exact hji (hc.frame_inj hq hj hf hi he hef)
    simp [hfv, hgr]
  intro e' he'
  by_cases hji : j = i
  · subst hji
    cases he.symm.trans he'
    have hlost : ∀ f gr, e.frame = some f → s.frame f = some gr → gr.pinned = false := by
      intro f gr hf hgr
      cases hef.symm.trans hf
      cases hv.symm.trans hgr
      exact hpin
    cases h with
    | clean | alloc | keep => exact ⟨_, Function.update_self .., .inr ⟨rfl, hlost⟩⟩
  · cases h with
    | clean | alloc | keep =>
      exact ⟨e', (Function.update_of_ne hji ..).trans he', .inl ⟨rfl, hother e' hji he'⟩⟩

private theorem Consistent.doEviction_spared (h : Consistent .idle s) {k : KPage}
    (hd : doEviction r s = some (k, t)) (j : SpteAddr) : Spared s t j := by
  simp only [doEviction, Option.bind_eq_bind, Option.bind_eq_some_iff] at hd
  obtain ⟨⟨v, s1⟩, hsel, ⟨ev, s2⟩, hun, hrest⟩ := hd
  obtain ⟨hpath, hscan, hev⟩ := selectVictim_path .idle hsel
  have h1 := hpath.consistent h
  obtain ⟨fr, i, e, p, pd, hv, hi, he, hp, hpd, -, -, -, hleave⟩ := evict_leaves hun hrest
  obtain ⟨hip, hef⟩ := h1.frame_entry (by simp) hv hi he hp
  have hpin : fr.pinned = false := by
    simp only [evictable, show s.frame v = some fr from hscan.frame ▸ hv, Option.any_some,
      Bool.and_eq_true] at hev
    simpa using hev.2.1
  refine Spared.trans (.of_eq (by rw [hscan.spte]) fun f fr hf => ?_)
    (hleave.spared h1 hv hip he hef hpin j)
  rw [hscan.frame]
  exact hf

private theorem Consistent.frameAlloc_spared (h : Consistent .idle s)
    (hd : frameAlloc r s = some (f, t)) (j : SpteAddr) : Spared s t j := by
  simp only [frameAlloc, Option.bind_eq_bind, Option.bind_eq_some_iff] at hd
  obtain ⟨f', hf', ⟨k, s1⟩, hpage, hd⟩ := hd
  have hc : Consistent .idle s.mallocFrame.2 := h.congr (sameMemory_takeHeap s)
  obtain ⟨-, -, hkeep, -⟩ := hc.framePage_path hpage
  have hfresh : s1.frame f' = none := hkeep.frame f' (frame_of_mallocFrame (s := s) hf')
  have hpush : Spared s1 t j := by
    cases hd
    refine .of_eq rfl fun g fr hg => ?_
    have hgf : g ≠ f := by grind
    simp [hgf, hg]
  have hspare : Spared s.mallocFrame.2 s1 j := by
    unfold framePage at hpage
    split at hpage
    · exact hc.doEviction_spared hpage j
    · split at hpage
      · next hget =>
        cases hpage
        simp only [pallocGetUserPage] at hget
        split at hget
        · cases hget
        · cases hget
          exact .of_eq rfl fun _ _ hf => hf
      · exact hc.doEviction_spared hpage j
  exact Spared.trans (.of_eq rfl fun _ _ hf => hf) (hspare.trans hpush)

/-! ## Loads -/

/-- Only entry `i` and frame `f` have changed. -/
private structure Only (i : SpteAddr) (f : FrameAddr) (s t : VmState) : Prop where
  spte : ∀ j, j ≠ i → t.spte j = s.spte j
  frame : ∀ g, g ≠ f → t.frame g = s.frame g

private theorem Only.trans (h : Only i f s t) (h' : Only i f t u) : Only i f s u :=
  ⟨fun j hj => (h'.spte j hj).trans (h.spte j hj), fun g hg => (h'.frame g hg).trans (h.frame g hg)⟩

/-- What happens to the frame in flight and to its entry-to-be spares the other entries. -/
private theorem Only.spared (h : Only i f s t) (hc : Consistent (.frame f) s)
    (hji : j ≠ i) : Spared s t j := by
  intro e he
  refine ⟨e, (h.spte j hji).trans he, .inl ⟨rfl, fun g fr hg hfr => ?_⟩⟩
  have hgf : g ≠ f := by
    rintro rfl
    obtain ⟨q, hq⟩ := hc.owned j e he
    obtain ⟨-, fr', -, hfr', hj, -⟩ := hc.resident q j e g hq he hg
    obtain ⟨fr'', hfr'', hnone⟩ := hc.flight_frame g rfl
    cases hfr'.symm.trans hfr''
    cases hj.symm.trans hnone
  rw [h.frame g hgf]
  exact hfr

private theorem only_frameFree (i : SpteAddr) (h : frameFree f s = some t) :
    Only i f s t := by
  obtain ⟨fr', -, rfl⟩ := frameFree_some h
  exact ⟨fun _ _ => rfl, fun g hg => Function.update_of_ne hg ..⟩

private theorem only_attachFrame
    (h : attachFrame p i f s = some (ok, t)) : Only i f s t := by
  obtain ⟨e, fr, pd, -, -, -, ⟨-, -, hfree⟩ | ⟨-, pd', -, rfl⟩⟩ := attachFrame_some h
  · exact { only_frameFree i hfree with }
  · exact ⟨fun j hj => Function.update_of_ne hj .., fun g hg => Function.update_of_ne hg ..⟩

private theorem only_setMem (i : SpteAddr) (f : FrameAddr) (hm : SameMemory s t) (k : KPage)
    (d : PageData) : Only i f s (t.setMem k d) :=
  ⟨fun j _ => congrFun hm.spte j, fun g _ => congrFun hm.frame g⟩

private theorem Consistent.vmLoadSpte_spared (h : Consistent .idle s)
    (hl : vmLoadSpte p i pin r s = some (ok, t)) (hji : j ≠ i) :
    Spared s t j := by
  simp only [vmLoadSpte, Option.bind_eq_bind, Option.bind_eq_some_iff] at hl
  obtain ⟨⟨f, s1⟩, halloc, fr, hfr, e1, he1, ⟨ok1, s2⟩, hread, hl⟩ := hl
  obtain ⟨L, k, hpath, hframe, hmem, -⟩ := h.frameAlloc_path halloc
  cases hfr.symm.trans hframe
  obtain ⟨s3, d, hsame, -, rfl, -⟩ := vmReadPage_some hread hmem
  refine (h.frameAlloc_spared halloc j).trans (Only.spared ?_ (hpath.consistent h) hji)
  refine (only_setMem i f hsame k d).trans ?_
  dsimp only at hl
  split at hl
  · obtain ⟨⟨ok2, s4⟩, hattach, hl⟩ := Option.bind_eq_some_iff.mp hl
    have hpin : Only i f s4 (setPinned f true s4) :=
      ⟨fun _ _ => rfl, fun g hg => Function.update_of_ne hg ..⟩
    cases hl
    cases hp : ok2 && pin with
    | true => simpa [hp] using (only_attachFrame hattach).trans hpin
    | false => simpa [hp] using only_attachFrame hattach
  · obtain ⟨t', hfree, hl⟩ := Option.map_eq_some_iff.mp hl
    cases hl
    exact only_frameFree i hfree

/-- Loading an entry through the fault handler spares the others. -/
theorem Consistent.handlePageLoad_spared (h : Consistent .idle s) (hl : handlePageLoad p i r s = some (ok, t)) (hji : j ≠ i) :
    Spared s t j := by
  simp only [handlePageLoad, Option.bind_eq_bind, Option.bind_eq_some_iff] at hl
  obtain ⟨⟨f, s1⟩, halloc, fr, hfr, e1, he1, ⟨ok1, s2⟩, hread, hl⟩ := hl
  obtain ⟨L, k, hpath, hframe, hmem, -⟩ := h.frameAlloc_path halloc
  cases hfr.symm.trans hframe
  refine (h.frameAlloc_spared halloc j).trans (Only.spared ?_ (hpath.consistent h) hji)
  have hfill : Only i f s1 s2 := by
    by_cases hty : e1.type = .swap
    · obtain ⟨-, -, rfl⟩ := faultReadPage_swap hread hty
      exact ⟨fun j hj => Function.update_of_ne hj .., fun _ _ => rfl⟩
    · obtain ⟨s3, d, hsame, -, rfl, -⟩ := faultReadPage_some hread hmem hty
      exact only_setMem i f hsame k d
  refine hfill.trans ?_
  split at hl
  · exact only_attachFrame hl
  · obtain ⟨t', hfree, hl⟩ := Option.map_eq_some_iff.mp hl
    cases hl
    exact only_frameFree i hfree

private theorem spte_sptInsertPage (p : Pid) (i : SpteAddr) (s : VmState) :
    (sptInsertPage p i s).2.spte = s.spte := by
  unfold sptInsertPage
  split
  · rfl
  · split <;> rfl

private theorem growStack_spared
    (hf : growStack p upage s = (o, t)) (hj : s.spte j = some e) :
    Spared s t j ∧ ∀ i, o = some i → i ≠ j := by
  unfold growStack at hf
  split at hf
  · cases hf
    exact ⟨.of_eq rfl fun _ _ h => h, by simp⟩
  · next i hi =>
    have hij : i ≠ j := by
      rintro rfl
      cases (spte_of_mallocSpte hi).symm.trans hj
    cases hf
    refine ⟨?_, fun i' hi' => by cases hi'; exact hij⟩
    have hcalm := calm_sptInsertPage p i (s.mallocSpte.2.newSpte i (stackSpte p upage))
    refine .of_eq ?_ fun f fr hf => ?_
    · rw [spte_sptInsertPage]
      exact Function.update_of_ne hij.symm ..
    · rw [hcalm.frame]
      exact hf

private theorem SpteSearch.spared (hf : SpteSearch p upage s o t) (hj : s.spte j = some e) :
    Spared s t j ∧ ∀ i, o = some i → i ≠ j ∨ sptLookup s p upage = some i := by
  have hsame : Spared s s j := .of_eq rfl fun _ _ h => h
  cases hf with
  | found hi =>
    refine ⟨hsame, fun i' hi' => .inr ?_⟩
    cases hi'
    exact hi
  | grown _ _ hgrow =>
    obtain ⟨hspare, hne⟩ := growStack_spared hgrow hj
    exact ⟨hspare, fun i hi => .inl (hne i hi)⟩
  | missing => exact ⟨hsame, fun i hi => by cases hi⟩

theorem Consistent.vmLoadPage_spared (h : Consistent .idle s) (hp : (s.pagedir p).isSome)
    (hl : vmLoadPage p upage pin r s = some (ok, t)) (hj : s.spte j = some e)
    (hne : ¬ (j ∈ s.spt p ∧ e.upage = pgRoundDown upage)) : Spared s t j := by
  unfold vmLoadPage at hl
  split at hl
  · next s1 hfind =>
    cases hl
    exact ((vmFindSpte_search hfind).spared hj).1
  · next i s1 hfind =>
    have hsearch := vmFindSpte_search hfind
    obtain ⟨hspare, hother⟩ := hsearch.spared hj
    obtain ⟨hpath, -, -⟩ := h.search_path hp hsearch
    have hji : j ≠ i := by
      rintro rfl
      rcases hother j rfl with hne' | hlook
      · exact hne' rfl
      · obtain ⟨hmem, e', he', hup⟩ := sptFind_some hlook
        cases hj.symm.trans he'
        exact hne ⟨hmem, by rw [hup, pgRoundDown_pgRoundDown]⟩
    obtain ⟨e1, -, hl⟩ := Option.bind_eq_some_iff.mp hl
    split at hl
    · cases hl
      exact hspare
    · exact hspare.trans ((hpath.consistent h).vmLoadSpte_spared hl hji)

end Pintos.Vm

import Pintos.Vm.Effect

/-!
# Consistency of frames, entries and page directories

The invariant that ties the frame table, the supplemental page tables, the page directories
and the user pool together, and its preservation by every effect. During `frame_alloc` a page
or a frame is in flight; the invariant says what is known about it then.
-/

namespace Pintos.Vm

open Pintos.Base Pintos.Threads Pintos.Userprog Pintos.Lib

variable {fl' : Flight} {fr : Frame} {f : FrameAddr} {k : KPage} {L : List Nat} {pd pd' : PageDir}
  {p : Pid} {e : SptEntry} {i : SpteAddr}

/-- The tables agree, with `fl` in flight. -/
structure Consistent (fl : Flight) (s : VmState) : Prop where
  table_nodup : s.frameTable.Nodup
  mem_table : ∀ f, f ∈ s.frameTable ↔ (s.frame f).isSome
  kpage_inj : ∀ f g fr gr, s.frame f = some fr → s.frame g = some gr →
    fr.kpage = gr.kpage → f = g
  /-- The pages in use are those of the frames, and the one in flight. -/
  pool : ∀ k, bitmapTest s.userPool k = true ↔
    (∃ f fr, s.frame f = some fr ∧ fr.kpage = k) ∨ fl = .page k
  flight_page : ∀ k f fr, fl = .page k → s.frame f = some fr → fr.kpage ≠ k
  flight_frame : ∀ f, fl = .frame f → ∃ fr, s.frame f = some fr ∧ fr.spte = none
  /-- Every other frame is that of an entry. -/
  linked : ∀ f fr, s.frame f = some fr → fl ≠ .frame f →
    ∃ p i e, fr.spte = some i ∧ i ∈ s.spt p ∧ s.spte i = some e ∧ e.frame = some f
  /-- A resident entry's frame points back, and its page is mapped with its rights. -/
  resident : ∀ p i e f, i ∈ s.spt p → s.spte i = some e → e.frame = some f →
    e.pagedir = some p ∧ ∃ fr pd, s.frame f = some fr ∧ fr.spte = some i ∧
      s.pagedir p = some pd ∧ pagedirGetPage pd e.upage = some fr.kpage ∧
      mmuWritable pd e.upage = e.writable
  /-- Every mapping is that of a resident entry. -/
  present : ∀ p pd u, s.pagedir p = some pd → pagedirGetPage pd u ≠ none →
    ∃ i e, i ∈ s.spt p ∧ s.spte i = some e ∧ e.upage = pgRoundDown u ∧ e.frame ≠ none
  dirty_writable : ∀ p pd u, s.pagedir p = some pd → pagedirGetPage pd u ≠ none →
    pagedirIsDirty pd u = true → mmuWritable pd u = true
  entry : ∀ p i, i ∈ s.spt p → ∃ e, s.spte i = some e ∧ pgOfs e.upage = 0 ∧
    isUserVaddr e.upage = true
  owned : ∀ i e, s.spte i = some e → ∃ p, i ∈ s.spt p
  spt_nodup : ∀ p, (s.spt p).Nodup
  spt_disjoint : ∀ p q i, i ∈ s.spt p → i ∈ s.spt q → p = q
  upage_inj : ∀ p i j e e', i ∈ s.spt p → j ∈ s.spt p → s.spte i = some e →
    s.spte j = some e' → e.upage = e'.upage → i = j
  live : ∀ p i, i ∈ s.spt p → (s.pagedir p).isSome
  /-- A page in swap was once written, so it is writable and its page table exists. -/
  swapped : ∀ p i e, i ∈ s.spt p → s.spte i = some e → e.type = .swap →
    e.writable = true ∧ ∀ pd, s.pagedir p = some pd → pd.table (pdNo e.upage) = true

variable {fl : Flight} {s t : VmState}

theorem Consistent.congr (h : SameMemory s t) (hs : Consistent fl s) : Consistent fl t := by
  obtain ⟨h1, h2, h3, h4, h5, -, h7, -, -, -⟩ := h
  constructor
  · rw [h3]; exact hs.table_nodup
  · rw [h3, h2]; exact hs.mem_table
  · rw [h2]; exact hs.kpage_inj
  · rw [h7, h2]; exact hs.pool
  · rw [h2]; exact hs.flight_page
  · rw [h2]; exact hs.flight_frame
  · rw [h1, h2, h4]; exact hs.linked
  · rw [h1, h2, h4, h5]; exact hs.resident
  · rw [h1, h4, h5]; exact hs.present
  · rw [h5]; exact hs.dirty_writable
  · rw [h1, h4]; exact hs.entry
  · rw [h1, h4]; exact hs.owned
  · rw [h4]; exact hs.spt_nodup
  · rw [h4]; exact hs.spt_disjoint
  · rw [h1, h4]; exact hs.upage_inj
  · rw [h4, h5]; exact hs.live
  · rw [h1, h4, h5]; exact hs.swapped

theorem consistent_init (pages slots : Nat) (mem : KPage → PageData) (device : Nat → SectorData)
    (inode : InodeNo → Filesys.Inode) (heap : Nat → Option Nat) :
    Consistent .idle (VmState.init pages slots mem device inode heap) := by
  constructor <;> simp [VmState.init]

theorem Consistent.pgRoundDown_upage (h : Consistent fl s) (hi : i ∈ s.spt p) (he : s.spte i = some e) :
    pgRoundDown e.upage = e.upage := by
  obtain ⟨e', he', hofs, -⟩ := h.entry p i hi
  cases he.symm.trans he'
  exact pgRoundDown_of_pgOfs_eq_zero hofs

/-- Two resident entries of different addresses have different frames. -/
theorem Consistent.frame_inj (h : Consistent fl s) {q : Pid} {j : SpteAddr}
    {e' : SptEntry} (hi : i ∈ s.spt p) (he : s.spte i = some e)
    (hf : e.frame = some f) (hj : j ∈ s.spt q) (he' : s.spte j = some e')
    (hf' : e'.frame = some f) : i = j := by
  obtain ⟨-, fr, -, hfr, hi', -⟩ := h.resident p i e f hi he hf
  obtain ⟨-, fr', -, hfr', hj', -⟩ := h.resident q j e' f hj he' hf'
  grind

/-- The page of an entry is mapped exactly if the entry is resident. -/
theorem Consistent.frame_ne_none_iff (h : Consistent fl s) (hi : i ∈ s.spt p) (he : s.spte i = some e)
    (hpd : s.pagedir p = some pd) : e.frame ≠ none ↔ pagedirGetPage pd e.upage ≠ none := by
  constructor
  · intro hf
    obtain ⟨f, hf⟩ := Option.ne_none_iff_exists'.mp hf
    obtain ⟨-, fr, pd', -, -, hpd', hget, -⟩ := h.resident p i e f hi he hf
    grind
  · intro hget
    obtain ⟨j, e', hj, he', hup, hf⟩ := h.present p pd e.upage hpd hget
    rw [h.pgRoundDown_upage hi he] at hup
    cases h.upage_inj p j i e' e hj hi he' he hup
    grind

/-- Only a page that is not mapped can be installed, so its entry was not resident. -/
theorem Consistent.frame_of_installPage (h : Consistent fl s) {b w : Bool} (hi : i ∈ s.spt p)
    (he : s.spte i = some e) (hpd : s.pagedir p = some pd)
    (hinst : installPage b pd e.upage k w = some pd') : e.frame = none := by
  by_contra hf
  have hget := (h.frame_ne_none_iff hi he hpd).mp hf
  simp [installPage, hget] at hinst

/-- Changing a directory without changing its mappings keeps the tables in agreement. -/
theorem Consistent.setPagedir (h : Consistent fl s)
    (hpd : s.pagedir p = some pd) (hget : ∀ u, pagedirGetPage pd' u = pagedirGetPage pd u)
    (hw : ∀ u, mmuWritable pd' u = mmuWritable pd u) (ht : pd'.table = pd.table)
    (hd : ∀ u, pagedirIsDirty pd' u = true → pagedirIsDirty pd u = true ∨
      mmuWritable pd u = true) :
    Consistent fl (s.setPagedir p pd') := by
  have hcases : ∀ q pd'', (s.setPagedir p pd').pagedir q = some pd'' →
      (q = p ∧ pd'' = pd') ∨ (q ≠ p ∧ s.pagedir q = some pd'') := by
    intro q pd'' hq
    by_cases hqp : q = p
    · exact .inl ⟨hqp, by simpa [VmState.setPagedir, hqp, eq_comm] using hq⟩
    · exact .inr ⟨hqp, by simpa [VmState.setPagedir, hqp] using hq⟩
  refine { h with resident := ?_, present := ?_, dirty_writable := ?_, live := ?_, swapped := ?_ }
  · intro q j e f hj he hf
    obtain ⟨hq, fr, pd'', hfr, hj', hpd'', hget', hw'⟩ := h.resident q j e f hj he hf
    refine ⟨hq, fr, ?_⟩
    by_cases hqp : q = p
    · subst hqp
      cases hpd.symm.trans hpd''
      exact ⟨pd', hfr, hj', by simp [VmState.setPagedir], (hget _).trans hget', (hw _).trans hw'⟩
    · exact ⟨pd'', hfr, hj', by simp [VmState.setPagedir, hqp, hpd''], hget', hw'⟩
  · intro q pd'' u hq hu
    rcases hcases q pd'' hq with ⟨rfl, rfl⟩ | ⟨-, hq'⟩
    · exact h.present q pd u hpd (hget u ▸ hu)
    · exact h.present q pd'' u hq' hu
  · intro q pd'' u hq hu hdirty
    rcases hcases q pd'' hq with ⟨rfl, rfl⟩ | ⟨-, hq'⟩
    · rw [hw]
      exact (hd u hdirty).elim (h.dirty_writable q pd u hpd (hget u ▸ hu)) id
    · exact h.dirty_writable q pd'' u hq' hu hdirty
  · intro q j hj
    by_cases hqp : q = p
    · simp [VmState.setPagedir, hqp]
    · simpa [VmState.setPagedir, hqp] using h.live q j hj
  · intro q j e hj he hswap
    refine ⟨(h.swapped q j e hj he hswap).1, fun pd'' hq => ?_⟩
    rcases hcases q pd'' hq with ⟨rfl, rfl⟩ | ⟨-, hq'⟩
    · rw [ht]
      exact (h.swapped q j e hj he hswap).2 pd hpd
    · exact (h.swapped q j e hj he hswap).2 pd'' hq'

private theorem Consistent.unmapped (h : Consistent .idle s) {v : FrameAddr} (e' : SptEntry)
    (hv : s.frame v = some fr)
    (hi : i ∈ s.spt p) (he : s.spte i = some e) (hev : e.frame = some v) (hpd : s.pagedir p = some pd)
    (hup : e'.upage = e.upage) (hfr : e'.frame = none) (hwr : e'.writable = e.writable)
    (hsw : e'.type = .swap → e.writable = true) :
    Consistent (.page fr.kpage) (s.unmapped v p pd e.upage i e') := by
  have hround := h.pgRoundDown_upage hi he
  have hother : ∀ j e'', (s.unmapped v p pd e.upage i e').spte j = some e'' →
      (j = i ∧ e'' = e') ∨ (j ≠ i ∧ s.spte j = some e'') := by
    intro j e'' hj
    by_cases hji : j = i
    · exact .inl ⟨hji, by simpa [VmState.unmapped, hji, eq_comm] using hj⟩
    · exact .inr ⟨hji, by simpa [VmState.unmapped, hji] using hj⟩
  have hframe : ∀ f fr', (s.unmapped v p pd e.upage i e').frame f = some fr' ↔
      f ≠ v ∧ s.frame f = some fr' := by
    intro f fr'
    by_cases hfv : f = v <;> simp [VmState.unmapped, hfv]
  constructor
  · exact h.table_nodup.erase _
  · intro f
    rw [VmState.unmapped, h.table_nodup.mem_erase_iff, h.mem_table]
    by_cases hf : f = v <;> simp [hf]
  · intro f g fr' gr hf hg
    exact h.kpage_inj f g fr' gr ((hframe _ _).mp hf).2 ((hframe _ _).mp hg).2
  · intro k
    simp only [hframe]
    rw [VmState.unmapped, h.pool]
    constructor
    · rintro (⟨f, fr', hf, rfl⟩ | hk)
      · by_cases hfv : f = v
        · subst hfv
          cases hv.symm.trans hf
          exact .inr rfl
        · exact .inl ⟨f, fr', ⟨hfv, hf⟩, rfl⟩
      · cases hk
    · rintro (⟨f, fr', hf, rfl⟩ | hk)
      · exact .inl ⟨f, fr', hf.2, rfl⟩
      · cases hk
        exact .inl ⟨v, fr, hv, rfl⟩
  · intro k f fr' hk hf hkp
    obtain rfl : fr.kpage = k := Flight.page.inj hk
    obtain ⟨hfv, hf⟩ := (hframe _ _).mp hf
    exact hfv (h.kpage_inj f v fr' fr hf hv hkp)
  · intro f hf
    cases hf
  · intro f fr' hf _
    obtain ⟨hfv, hf⟩ := (hframe _ _).mp hf
    obtain ⟨q, j, e'', hj, hq, he'', hf'⟩ := h.linked f fr' hf (by simp)
    have hji : j ≠ i := by grind
    exact ⟨q, j, e'', hj, hq, by simp [VmState.unmapped, hji, he''], hf'⟩
  · intro q j e'' f hj he'' hf
    rcases hother j e'' he'' with ⟨-, rfl⟩ | ⟨hji, hje⟩
    · rw [hfr] at hf
      cases hf
    · obtain ⟨hq, fr', pd', hfr', hspte, hpd', hget, hw⟩ := h.resident q j e'' f hj hje hf
      have hfv : f ≠ v := by
        rintro rfl
        exact hji (h.frame_inj hj hje hf hi he hev)
      refine ⟨hq, fr', ?_⟩
      by_cases hqp : q = p
      · subst hqp
        cases hpd.symm.trans hpd'
        have hup' : e''.upage ≠ e.upage := fun heq =>
          hji (h.upage_inj q j i e'' e hj hi hje he heq)
        refine ⟨pagedirClearPage pd e.upage, (hframe _ _).mpr ⟨hfv, hfr'⟩, hspte,
          by simp [VmState.unmapped], ?_, ?_⟩
        · rw [pagedirGetPage_clearPage, hround, h.pgRoundDown_upage hj hje, if_neg hup', hget]
        · rw [mmuWritable_clearPage, hround, h.pgRoundDown_upage hj hje, if_neg hup', hw]
      · exact ⟨pd', (hframe _ _).mpr ⟨hfv, hfr'⟩, hspte, by simp [VmState.unmapped, hqp, hpd'],
          hget, hw⟩
  · intro q pd' u hq hu
    by_cases hqp : q = p
    · subst hqp
      obtain rfl : pagedirClearPage pd e.upage = pd' := by simpa [VmState.unmapped] using hq
      rw [pagedirGetPage_clearPage] at hu
      obtain ⟨j, e'', hj, he'', hup', hr⟩ := h.present q pd u hpd (by grind)
      have hji : j ≠ i := by grind
      exact ⟨j, e'', hj, by simp [VmState.unmapped, hji, he''], hup', hr⟩
    · obtain ⟨j, e'', hj, he'', hup', hr⟩ :=
        h.present q pd' u (by simpa [VmState.unmapped, hqp] using hq) hu
      have hji : j ≠ i := fun hji => hqp (h.spt_disjoint q p i (hji ▸ hj) hi)
      exact ⟨j, e'', hj, by simp [VmState.unmapped, hji, he''], hup', hr⟩
  · intro q pd' u hq hu hd
    by_cases hqp : q = p
    · subst hqp
      obtain rfl : pagedirClearPage pd e.upage = pd' := by simpa [VmState.unmapped] using hq
      rw [pagedirGetPage_clearPage] at hu
      rw [pagedirIsDirty_clearPage] at hd
      rw [mmuWritable_clearPage]
      have := h.dirty_writable q pd u hpd
      grind
    · exact h.dirty_writable q pd' u (by simpa [VmState.unmapped, hqp] using hq) hu hd
  · intro q j hj
    obtain ⟨e'', he'', hofs⟩ := h.entry q j hj
    by_cases hji : j = i
    · subst hji
      cases he.symm.trans he''
      exact ⟨e', by simp [VmState.unmapped], by rwa [hup]⟩
    · exact ⟨e'', by simp [VmState.unmapped, hji, he''], hofs⟩
  · intro j e'' hj
    rcases hother j e'' hj with ⟨rfl, -⟩ | ⟨-, hj⟩
    · exact ⟨p, hi⟩
    · exact h.owned j e'' hj
  · exact h.spt_nodup
  · exact h.spt_disjoint
  · intro q j k e1 e2 hj hk h1 h2
    have hold : ∀ l e0, (s.unmapped v p pd e.upage i e').spte l = some e0 →
        ∃ e1, s.spte l = some e1 ∧ e1.upage = e0.upage := by
      intro l e0 hl
      rcases hother l e0 hl with ⟨rfl, rfl⟩ | ⟨-, hl⟩
      · exact ⟨e, he, hup.symm⟩
      · exact ⟨e0, hl, rfl⟩
    obtain ⟨e1', hj', hu1⟩ := hold j e1 h1
    obtain ⟨e2', hk', hu2⟩ := hold k e2 h2
    exact fun heq => h.upage_inj q j k e1' e2' hj hk hj' hk' (hu1.trans (heq.trans hu2.symm))
  · intro q j hj
    by_cases hqp : q = p
    · simp [VmState.unmapped, hqp]
    · simpa [VmState.unmapped, hqp] using h.live q j hj
  · intro q j e'' hj he'' hswap
    have htable : ∀ pd', (s.unmapped v p pd e.upage i e').pagedir q = some pd' →
        ∃ pd0, s.pagedir q = some pd0 ∧ pd'.table = pd0.table := by
      intro pd' hq
      by_cases hqp : q = p
      · subst hqp
        obtain rfl : pagedirClearPage pd e.upage = pd' := by simpa [VmState.unmapped] using hq
        exact ⟨pd, hpd, rfl⟩
      · exact ⟨pd', by simpa [VmState.unmapped, hqp] using hq, rfl⟩
    rcases hother j e'' he'' with ⟨rfl, rfl⟩ | ⟨hji, hje⟩
    · refine ⟨hwr.trans (hsw hswap), fun pd' hq => ?_⟩
      obtain ⟨pd0, hpd0, ht⟩ := htable pd' hq
      cases h.spt_disjoint q p j hj hi
      cases hpd.symm.trans hpd0
      have hget : pagedirGetPage pd e.upage ≠ none :=
        (h.frame_ne_none_iff hi he hpd).mp (by simp [hev])
      rw [ht, hup]
      exact table_of_pagedirGetPage hget
    · refine ⟨(h.swapped q j e'' hj hje hswap).1, fun pd' hq => ?_⟩
      obtain ⟨pd0, hpd0, ht⟩ := htable pd' hq
      rw [ht]
      exact (h.swapped q j e'' hj hje hswap).2 pd0 hpd0

private theorem Consistent.poolFreed (h : Consistent (.page k) s) (d : PageData) :
    Consistent .idle (s.poolFreed k d) := by
  have hk : k < s.userPool.length := lt_length_of_bitmapTest ((h.pool k).mpr (.inr rfl))
  refine { h with pool := ?_, flight_page := ?_, flight_frame := ?_, linked := ?_ }
  · intro k'
    have hnot := h.flight_page k
    rw [VmState.poolFreed, bitmapTest_bitmapSet _ _ _ _ hk]
    by_cases hkk : k' = k
    · subst hkk
      simp only [if_true, reduceCtorEq, or_false, false_iff, Bool.false_eq_true]
      rintro ⟨f, fr, hf, hfk⟩
      exact hnot f fr rfl hf hfk
    · rw [if_neg hkk, h.pool]
      simp [Ne.symm hkk]
  · intro k' f fr hk'
    cases hk'
  · intro f hf
    cases hf
  · intro f fr hf _
    exact h.linked f fr hf (by simp)

private theorem Consistent.palloc (h : Consistent .idle s) (hk : k < s.userPool.length)
    (hb : bitmapTest s.userPool k = false) :
    Consistent (.page k) { s with userPool := bitmapSet s.userPool k true } := by
  refine { h with pool := ?_, flight_page := ?_, flight_frame := ?_, linked := ?_ }
  · intro k'
    rw [bitmapTest_bitmapSet _ _ _ _ hk]
    by_cases hkk : k' = k
    · simp [hkk]
    · rw [if_neg hkk, h.pool]
      simp [Ne.symm hkk]
  · intro k' f fr hk' hf hfk
    obtain rfl : k = k' := Flight.page.inj hk'
    have := (h.pool k).mpr (.inl ⟨f, fr, hf, hfk⟩)
    rw [hb] at this
    cases this
  · intro f hf
    cases hf
  · intro f fr hf _
    exact h.linked f fr hf (by simp)

private theorem Consistent.push (h : Consistent (.page k) s) (d : PageData)
    (hf : s.frame f = none) :
    Consistent (.frame f) { s with
      mem := Function.update s.mem k d
      frame := Function.update s.frame f (some { kpage := k, spte := none, pinned := false })
      frameTable := s.frameTable ++ [f] } := by
  have hne : ∀ g gr, s.frame g = some gr → g ≠ f := by grind
  have hframe : ∀ g gr, Function.update s.frame f (some ⟨k, none, false⟩) g = some gr →
      (g = f ∧ gr = ⟨k, none, false⟩) ∨ (g ≠ f ∧ s.frame g = some gr) := by
    intro g gr hg
    by_cases hgf : g = f
    · exact .inl ⟨hgf, by simpa [hgf, eq_comm] using hg⟩
    · exact .inr ⟨hgf, by simpa [hgf] using hg⟩
  have hnot : f ∉ s.frameTable := by simp [h.mem_table, hf]
  refine { h with
    table_nodup := ?_, mem_table := ?_, kpage_inj := ?_, pool := ?_, flight_page := ?_,
    flight_frame := ?_, linked := ?_, resident := ?_ }
  · exact List.nodup_append.mpr ⟨h.table_nodup, List.nodup_singleton f, by grind⟩
  · intro g
    rw [List.mem_append, List.mem_singleton, h.mem_table]
    by_cases hgf : g = f <;> simp [hgf]
  · intro g g' gr gr' hg hg'
    have hp := h.flight_page k
    have := h.kpage_inj g g' gr gr'
    rcases hframe g gr hg with ⟨rfl, rfl⟩ | ⟨-, hg⟩ <;>
      rcases hframe g' gr' hg' with ⟨rfl, rfl⟩ | ⟨-, hg'⟩ <;> grind
  · intro k'
    rw [h.pool]
    constructor
    · rintro (⟨g, gr, hg, rfl⟩ | hk)
      · exact .inl ⟨g, gr, by simp [hne g gr hg, hg], rfl⟩
      · cases hk
        exact .inl ⟨f, _, Function.update_self .., rfl⟩
    · rintro (⟨g, gr, hg, rfl⟩ | hk)
      · rcases hframe g gr hg with ⟨rfl, rfl⟩ | ⟨-, hg⟩
        · exact .inr rfl
        · exact .inl ⟨g, gr, hg, rfl⟩
      · cases hk
  · intro k' g gr hk
    cases hk
  · intro g hg
    cases hg
    exact ⟨_, Function.update_self .., rfl⟩
  · intro g gr hg hgf
    rcases hframe g gr hg with ⟨rfl, -⟩ | ⟨-, hg⟩
    · exact absurd rfl hgf
    · exact h.linked g gr hg (by simp)
  · intro q j e g hj he hg
    obtain ⟨hq, gr, pd, hgr, hrest⟩ := h.resident q j e g hj he hg
    exact ⟨hq, gr, pd, by simp [hne g gr hgr, hgr], hrest⟩

private theorem Consistent.pop (h : Consistent (.frame f) s)
    (hf : s.frame f = some fr) :
    Consistent (.page fr.kpage) { s with
      frameTable := s.frameTable.erase f
      frame := Function.update s.frame f none } := by
  have hframe : ∀ g gr, Function.update s.frame f none g = some gr ↔
      g ≠ f ∧ s.frame g = some gr := by
    intro g gr
    by_cases hgf : g = f <;> simp [hgf]
  have hspte : fr.spte = none := by
    obtain ⟨fr', hfr', hnone⟩ := h.flight_frame f rfl
    grind
  refine { h with
    table_nodup := ?_, mem_table := ?_, kpage_inj := ?_, pool := ?_, flight_page := ?_,
    flight_frame := ?_, linked := ?_, resident := ?_ }
  · exact h.table_nodup.erase _
  · intro g
    rw [h.table_nodup.mem_erase_iff, h.mem_table]
    by_cases hgf : g = f <;> simp [hgf]
  · intro g g' gr gr' hg hg'
    exact h.kpage_inj g g' gr gr' ((hframe _ _).mp hg).2 ((hframe _ _).mp hg').2
  · intro k
    simp only [hframe]
    rw [h.pool]
    constructor
    · rintro (⟨g, gr, hg, rfl⟩ | hk)
      · by_cases hgf : g = f
        · subst hgf
          cases hf.symm.trans hg
          exact .inr rfl
        · exact .inl ⟨g, gr, ⟨hgf, hg⟩, rfl⟩
      · cases hk
    · rintro (⟨g, gr, hg, rfl⟩ | hk)
      · exact .inl ⟨g, gr, hg.2, rfl⟩
      · cases hk
        exact .inl ⟨f, fr, hf, rfl⟩
  · intro k g gr hk hg hgk
    obtain rfl : fr.kpage = k := Flight.page.inj hk
    obtain ⟨hgf, hg⟩ := (hframe _ _).mp hg
    exact hgf (h.kpage_inj g f gr fr hg hf hgk)
  · intro g hg
    cases hg
  · intro g gr hg _
    obtain ⟨hgf, hg⟩ := (hframe _ _).mp hg
    exact h.linked g gr hg (by simpa using Ne.symm hgf)
  · intro q j e g hj he hg
    obtain ⟨hq, gr, pd, hgr, hj', hrest⟩ := h.resident q j e g hj he hg
    have hgf : g ≠ f := by grind
    exact ⟨hq, gr, pd, (hframe _ _).mpr ⟨hgf, hgr⟩, hj', hrest⟩

/-- A frame in flight can be mapped for an entry whose page is not mapped. -/
theorem Consistent.attached (h : Consistent (.frame f) s) (e' : SptEntry) {b : Bool}
    (d : PageData)
    (hf : s.frame f = some fr) (hi : i ∈ s.spt p) (he : s.spte i = some e)
    (hpd : s.pagedir p = some pd)
    (hinst : installPage b pd e.upage fr.kpage e.writable = some pd')
    (hup : e'.upage = e.upage) (hwr : e'.writable = e.writable) (hty : e'.type = e.type) :
    Consistent .idle (s.attached p pd' i e' f fr d) := by
  obtain ⟨hnone, hset⟩ := installPage_some hinst
  have hround := h.pgRoundDown_upage hi he
  have hnr : e.frame = none := by
    by_contra hr
    exact (h.frame_ne_none_iff hi he hpd).mp hr hnone
  have hget := pagedirGetPage_setPage hset
  have hwri := mmuWritable_setPage hset
  have hspte : ∀ j e'', (s.attached p pd' i e' f fr d).spte j = some e'' →
      (j = i ∧ e'' = { e' with frame := some f, pagedir := some p }) ∨
        (j ≠ i ∧ s.spte j = some e'') := by
    intro j e'' hj
    by_cases hji : j = i
    · exact .inl ⟨hji, by simpa [VmState.attached, hji, eq_comm] using hj⟩
    · exact .inr ⟨hji, by simpa [VmState.attached, hji] using hj⟩
  have hold : ∀ j e'', (s.attached p pd' i e' f fr d).spte j = some e'' →
      ∃ e0, s.spte j = some e0 ∧ e0.upage = e''.upage := by
    intro j e'' hj
    rcases hspte j e'' hj with ⟨rfl, rfl⟩ | ⟨-, hj⟩
    · exact ⟨e, he, hup.symm⟩
    · exact ⟨e'', hj, rfl⟩
  have hframe : ∀ g gr, (s.attached p pd' i e' f fr d).frame g = some gr →
      (g = f ∧ gr = { fr with spte := some i }) ∨ (g ≠ f ∧ s.frame g = some gr) := by
    intro g gr hg
    by_cases hgf : g = f
    · exact .inl ⟨hgf, by simpa [VmState.attached, hgf, eq_comm] using hg⟩
    · exact .inr ⟨hgf, by simpa [VmState.attached, hgf] using hg⟩
  have hkeep : ∀ g gr, s.frame g = some gr →
      ∃ gr', (s.attached p pd' i e' f fr d).frame g = some gr' ∧ gr'.kpage = gr.kpage := by
    intro g gr hg
    by_cases hgf : g = f
    · subst hgf
      cases hf.symm.trans hg
      exact ⟨_, Function.update_self .., rfl⟩
    · exact ⟨gr, by simp [VmState.attached, hgf, hg], rfl⟩
  have hpdc : ∀ q pd'', (s.attached p pd' i e' f fr d).pagedir q = some pd'' →
      (q = p ∧ pd'' = pd') ∨ (q ≠ p ∧ s.pagedir q = some pd'') := by
    intro q pd'' hq
    by_cases hqp : q = p
    · exact .inl ⟨hqp, by simpa [VmState.attached, hqp, eq_comm] using hq⟩
    · exact .inr ⟨hqp, by simpa [VmState.attached, hqp] using hq⟩
  constructor
  · exact h.table_nodup
  · intro g
    rw [VmState.attached, h.mem_table]
    by_cases hgf : g = f <;> simp [hgf, hf]
  · intro g g' gr gr' hg hg'
    have := h.kpage_inj g g'
    rcases hframe g gr hg with ⟨rfl, rfl⟩ | ⟨-, hg⟩ <;>
      rcases hframe g' gr' hg' with ⟨rfl, rfl⟩ | ⟨-, hg'⟩ <;> grind
  · intro k
    rw [VmState.attached, h.pool]
    constructor
    · rintro (⟨g, gr, hg, rfl⟩ | hk)
      · obtain ⟨gr', hgr', hk⟩ := hkeep g gr hg
        exact .inl ⟨g, gr', hgr', hk⟩
      · cases hk
    · rintro (⟨g, gr, hg, rfl⟩ | hk)
      · rcases hframe g gr hg with ⟨rfl, rfl⟩ | ⟨-, hg⟩
        · exact .inl ⟨g, fr, hf, rfl⟩
        · exact .inl ⟨g, gr, hg, rfl⟩
      · cases hk
  · intro k g gr hk
    cases hk
  · intro g hg
    cases hg
  · intro g gr hg _
    rcases hframe g gr hg with ⟨rfl, rfl⟩ | ⟨hgf, hg⟩
    · exact ⟨p, i, _, rfl, hi, Function.update_self .., rfl⟩
    · obtain ⟨q, j, e'', hj, hq, he'', hf''⟩ := h.linked g gr hg (by simpa using Ne.symm hgf)
      have hji : j ≠ i := by grind
      exact ⟨q, j, e'', hj, hq, by simp [VmState.attached, hji, he''], hf''⟩
  · intro q j e'' g hj he'' hg
    rcases hspte j e'' he'' with ⟨rfl, rfl⟩ | ⟨hji, hje⟩
    · cases h.spt_disjoint p q j hi hj
      obtain rfl : f = g := by simpa using hg
      refine ⟨rfl, _, pd', Function.update_self .., rfl, Function.update_self .., ?_, ?_⟩
      · show pagedirGetPage pd' e'.upage = some fr.kpage
        rw [hup, hget, if_pos rfl]
      · show mmuWritable pd' e'.upage = e'.writable
        rw [hup, hwri, if_pos rfl, hwr]
    · obtain ⟨hq, gr, pd'', hgr, hj', hpd'', hg', hw⟩ := h.resident q j e'' g hj hje hg
      have hgf : g ≠ f := by
        rintro rfl
        obtain ⟨fr', hfr', hn⟩ := h.flight_frame g rfl
        grind
      refine ⟨hq, gr, ?_⟩
      by_cases hqp : q = p
      · subst hqp
        cases hpd.symm.trans hpd''
        have hne : pgRoundDown e''.upage ≠ pgRoundDown e.upage := by
          rw [hround, h.pgRoundDown_upage hj hje]
          exact fun heq => hji (h.upage_inj q j i e'' e hj hi hje he heq)
        exact ⟨pd', by simp [VmState.attached, hgf, hgr], hj', Function.update_self ..,
          by rw [hget, if_neg hne, hg'], by rw [hwri, if_neg hne, hw]⟩
      · exact ⟨pd'', by simp [VmState.attached, hgf, hgr], hj',
          by simp [VmState.attached, hqp, hpd''], hg', hw⟩
  · intro q pd'' u hq hu
    rcases hpdc q pd'' hq with ⟨rfl, rfl⟩ | ⟨hqp, hq⟩
    · rw [hget] at hu
      by_cases hue : pgRoundDown u = pgRoundDown e.upage
      · exact ⟨i, _, hi, Function.update_self .., by simp [hup, hue, hround], by simp⟩
      · rw [if_neg hue] at hu
        obtain ⟨j, e'', hj, he'', hup', hr⟩ := h.present q pd u hpd hu
        have hji : j ≠ i := by grind
        exact ⟨j, e'', hj, by simp [VmState.attached, hji, he''], hup', hr⟩
    · obtain ⟨j, e'', hj, he'', hup', hr⟩ := h.present q pd'' u hq hu
      have hji : j ≠ i := fun hji => hqp (h.spt_disjoint q p i (hji ▸ hj) hi)
      exact ⟨j, e'', hj, by simp [VmState.attached, hji, he''], hup', hr⟩
  · intro q pd'' u hq hu hd
    rcases hpdc q pd'' hq with ⟨rfl, rfl⟩ | ⟨hqp, hq⟩
    · rw [pagedirIsDirty_setPage hset] at hd
      rw [hget] at hu
      rw [hwri]
      have := h.dirty_writable q pd u hpd
      grind
    · exact h.dirty_writable q pd'' u hq hu hd
  · intro q j hj
    obtain ⟨e'', he'', hofs⟩ := h.entry q j hj
    by_cases hji : j = i
    · subst hji
      cases he.symm.trans he''
      exact ⟨_, Function.update_self .., by simpa [hup] using hofs⟩
    · exact ⟨e'', by simp [VmState.attached, hji, he''], hofs⟩
  · intro j e'' hj
    obtain ⟨e0, hj, -⟩ := hold j e'' hj
    exact h.owned j e0 hj
  · exact h.spt_nodup
  · exact h.spt_disjoint
  · intro q j k e1 e2 hj hk h1 h2 heq
    obtain ⟨e1', hj', hu1⟩ := hold j e1 h1
    obtain ⟨e2', hk', hu2⟩ := hold k e2 h2
    exact h.upage_inj q j k e1' e2' hj hk hj' hk' (hu1.trans (heq.trans hu2.symm))
  · intro q j hj
    by_cases hqp : q = p
    · simp [VmState.attached, hqp]
    · simpa [VmState.attached, hqp] using h.live q j hj
  · intro q j e'' hj he'' hswap
    have hstat : ∃ e0, s.spte j = some e0 ∧ e0.type = .swap ∧ e0.upage = e''.upage ∧
        e0.writable = e''.writable := by
      rcases hspte j e'' he'' with ⟨rfl, rfl⟩ | ⟨-, hj⟩
      · exact ⟨e, he, hty.symm.trans hswap, hup.symm, hwr.symm⟩
      · exact ⟨e'', hj, hswap, rfl, rfl⟩
    obtain ⟨e0, he0, hs0, hu0, hw0⟩ := hstat
    obtain ⟨hw, ht⟩ := h.swapped q j e0 hj he0 hs0
    refine ⟨hw0 ▸ hw, fun pd'' hq => ?_⟩
    rcases hpdc q pd'' hq with ⟨rfl, rfl⟩ | ⟨hqp, hq⟩
    · exact hu0 ▸ table_setPage hset (ht pd hpd)
    · exact hu0 ▸ ht pd'' hq

private theorem Consistent.setFrame_pinned (h : Consistent fl s)
    (hf : s.frame f = some fr) (b : Bool) :
    Consistent fl (s.setFrame f { fr with pinned := b }) := by
  have hframe : ∀ g gr, (s.setFrame f { fr with pinned := b }).frame g = some gr →
      ∃ gr', s.frame g = some gr' ∧ gr'.kpage = gr.kpage ∧ gr'.spte = gr.spte := by
    intro g gr hg
    by_cases hgf : g = f
    · subst hgf
      obtain rfl : { fr with pinned := b } = gr := by simpa [VmState.setFrame] using hg
      exact ⟨fr, hf, rfl, rfl⟩
    · exact ⟨gr, by simpa [VmState.setFrame, hgf] using hg, rfl, rfl⟩
  have hkeep : ∀ g gr, s.frame g = some gr →
      ∃ gr', (s.setFrame f { fr with pinned := b }).frame g = some gr' ∧
        gr'.kpage = gr.kpage ∧ gr'.spte = gr.spte := by
    intro g gr hg
    by_cases hgf : g = f
    · subst hgf
      cases hf.symm.trans hg
      exact ⟨_, Function.update_self .., rfl, rfl⟩
    · exact ⟨gr, by simp [VmState.setFrame, hgf, hg], rfl, rfl⟩
  refine { h with
    mem_table := ?_, kpage_inj := ?_, pool := ?_, flight_page := ?_, flight_frame := ?_,
    linked := ?_, resident := ?_ }
  · intro g
    rw [VmState.setFrame, h.mem_table]
    by_cases hgf : g = f <;> simp [hgf, hf]
  · intro g g' gr gr' hg hg' hk
    obtain ⟨gr0, hg0, hk0, -⟩ := hframe g gr hg
    obtain ⟨gr1, hg1, hk1, -⟩ := hframe g' gr' hg'
    exact h.kpage_inj g g' gr0 gr1 hg0 hg1 (hk0.trans (hk.trans hk1.symm))
  · intro k
    rw [VmState.setFrame, h.pool]
    refine or_congr ⟨?_, ?_⟩ Iff.rfl
    · rintro ⟨g, gr, hg, rfl⟩
      obtain ⟨gr', hg', hk, -⟩ := hkeep g gr hg
      exact ⟨g, gr', hg', hk⟩
    · rintro ⟨g, gr, hg, rfl⟩
      obtain ⟨gr', hg', hk, -⟩ := hframe g gr hg
      exact ⟨g, gr', hg', hk⟩
  · intro k g gr hk hg
    obtain ⟨gr', hg', hk', -⟩ := hframe g gr hg
    exact hk' ▸ h.flight_page k g gr' hk hg'
  · intro g hg
    obtain ⟨gr, hgr, hn⟩ := h.flight_frame g hg
    obtain ⟨gr', hg', -, hs⟩ := hkeep g gr hgr
    exact ⟨gr', hg', hs.trans hn⟩
  · intro g gr hg hne
    obtain ⟨gr', hg', -, hs⟩ := hframe g gr hg
    obtain ⟨q, j, e, hj, hrest⟩ := h.linked g gr' hg' hne
    exact ⟨q, j, e, hs ▸ hj, hrest⟩
  · intro q j e g hj he hg
    obtain ⟨hq, gr, pd, hgr, hj', hpd, hget, hw⟩ := h.resident q j e g hj he hg
    obtain ⟨gr', hg', hk, hs⟩ := hkeep g gr hgr
    exact ⟨hq, gr', pd, hg', hs.trans hj', hpd, hk ▸ hget, hw⟩

/-- A new entry that is not resident can enter a table that lacks its page. -/
theorem Consistent.insert (h : Consistent fl s)
    (hi : s.spte i = none) (hp : (s.pagedir p).isSome)
    (hu : pgOfs e.upage = 0 ∧ isUserVaddr e.upage = true)
    (hn : ∀ j ∈ s.spt p, ∀ e', s.spte j = some e' → e'.upage ≠ e.upage)
    (hf : e.frame = none) (ht : e.type ≠ .swap) :
    Consistent fl { s.newSpte i e with spt := Function.update s.spt p (i :: s.spt p) } := by
  have hne : ∀ j e', s.spte j = some e' → j ≠ i := by grind
  have hmem : ∀ q j, j ∈ Function.update s.spt p (i :: s.spt p) q ↔
      (q = p ∧ j = i) ∨ j ∈ s.spt q := by
    intro q j
    by_cases hqp : q = p
    · subst hqp
      simp
    · simp [hqp]
  have hold : ∀ q, i ∉ s.spt q := by
    intro q hq
    obtain ⟨e', he', -⟩ := h.entry q i hq
    exact hne i e' he' rfl
  have hspte : ∀ j e', (s.newSpte i e).spte j = some e' →
      (j = i ∧ e' = e) ∨ (j ≠ i ∧ s.spte j = some e') := by
    intro j e' hj
    by_cases hji : j = i
    · exact .inl ⟨hji, by simpa [VmState.newSpte, hji, eq_comm] using hj⟩
    · exact .inr ⟨hji, by simpa [VmState.newSpte, hji] using hj⟩
  have hkeep : ∀ j e', s.spte j = some e' → (s.newSpte i e).spte j = some e' := by
    intro j e' hj
    simp [VmState.newSpte, hne j e' hj, hj]
  -- membership in a table and the entry there come together from the old state or are new
  have hboth : ∀ q j e', j ∈ Function.update s.spt p (i :: s.spt p) q →
      (s.newSpte i e).spte j = some e' →
      (q = p ∧ j = i ∧ e' = e) ∨ (j ∈ s.spt q ∧ s.spte j = some e') := by
    intro q j e' hq hj
    rcases (hmem q j).mp hq with ⟨rfl, rfl⟩ | hqj
    · rcases hspte j e' hj with ⟨-, rfl⟩ | ⟨hji, -⟩
      · exact .inl ⟨rfl, rfl, rfl⟩
      · exact absurd rfl hji
    · rcases hspte j e' hj with ⟨rfl, -⟩ | ⟨-, hj⟩
      · exact absurd hqj (hold q)
      · exact .inr ⟨hqj, hj⟩
  refine { h with
    linked := ?_, resident := ?_, present := ?_, entry := ?_, owned := ?_, spt_nodup := ?_,
    spt_disjoint := ?_, upage_inj := ?_, live := ?_, swapped := ?_ }
  · intro g gr hg hne
    obtain ⟨q, j, e', hj, hq, he', hg'⟩ := h.linked g gr hg hne
    exact ⟨q, j, e', hj, (hmem q j).mpr (.inr hq), hkeep j e' he', hg'⟩
  · intro q j e' g hj he' hg
    rcases hboth q j e' hj he' with ⟨-, -, rfl⟩ | ⟨hj, he'⟩
    · rw [hf] at hg
      cases hg
    · exact h.resident q j e' g hj he' hg
  · intro q pd u hq hu'
    obtain ⟨j, e', hj, he', hrest⟩ := h.present q pd u hq hu'
    exact ⟨j, e', (hmem q j).mpr (.inr hj), hkeep j e' he', hrest⟩
  · intro q j hj
    rcases (hmem q j).mp hj with ⟨rfl, rfl⟩ | hj
    · exact ⟨e, Function.update_self .., hu⟩
    · obtain ⟨e', he', hrest⟩ := h.entry q j hj
      exact ⟨e', hkeep j e' he', hrest⟩
  · intro j e' hj
    rcases hspte j e' hj with ⟨rfl, -⟩ | ⟨-, hj⟩
    · exact ⟨p, (hmem p j).mpr (.inl ⟨rfl, rfl⟩)⟩
    · obtain ⟨q, hq⟩ := h.owned j e' hj
      exact ⟨q, (hmem q j).mpr (.inr hq)⟩
  · intro q
    by_cases hqp : q = p
    · subst hqp
      simpa using ⟨hold q, h.spt_nodup q⟩
    · simpa [hqp] using h.spt_nodup q
  · intro q q' j hj hj'
    have := h.spt_disjoint q q' j
    rcases (hmem q j).mp hj with ⟨rfl, rfl⟩ | hj <;>
      rcases (hmem q' j).mp hj' with ⟨rfl, -⟩ | hj' <;> grind
  · intro q j k e1 e2 hj hk h1 h2 heq
    rcases hboth q j e1 hj h1 with ⟨rfl, rfl, rfl⟩ | ⟨hj', h1'⟩ <;>
      rcases hboth q k e2 hk h2 with ⟨hqp, rfl, rfl⟩ | ⟨hk', h2'⟩
    · rfl
    · exact absurd heq.symm (hn k hk' e2 h2')
    · exact absurd heq (hn j (hqp ▸ hj') e1 h1')
    · exact h.upage_inj q j k e1 e2 hj' hk' h1' h2' heq
  · intro q j hj
    rcases (hmem q j).mp hj with ⟨rfl, -⟩ | hj
    · exact hp
    · exact h.live q j hj
  · intro q j e' hj he' hswap
    rcases hboth q j e' hj he' with ⟨-, -, rfl⟩ | ⟨hj, he'⟩
    · exact absurd hswap ht
    · exact h.swapped q j e' hj he' hswap

private theorem Consistent.entryFreed (h : Consistent fl s)
    (hi : i ∈ s.spt p) (he : s.spte i = some e) (hf : e.frame = none) :
    Consistent fl (s.entryFreed p i) := by
  have hmem : ∀ q j, j ∈ (s.entryFreed p i).spt q ↔ j ≠ i ∧ j ∈ s.spt q := by
    intro q j
    by_cases hqp : q = p
    · subst hqp
      simp [VmState.entryFreed, (h.spt_nodup q).mem_erase_iff]
    · have : j ∈ s.spt q → j ≠ i := fun hj hji => hqp (h.spt_disjoint q p i (hji ▸ hj) hi)
      simpa [VmState.entryFreed, hqp] using this
  have hspte : ∀ j e', (s.entryFreed p i).spte j = some e' ↔ j ≠ i ∧ s.spte j = some e' := by
    intro j e'
    by_cases hji : j = i <;> simp [VmState.entryFreed, hji]
  refine { h with
    linked := ?_, resident := ?_, present := ?_, entry := ?_, owned := ?_, spt_nodup := ?_,
    spt_disjoint := ?_, upage_inj := ?_, live := ?_, swapped := ?_ }
  · intro g gr hg hne
    obtain ⟨q, j, e', hj, hq, he', hg'⟩ := h.linked g gr hg hne
    have hji : j ≠ i := by grind
    exact ⟨q, j, e', hj, (hmem q j).mpr ⟨hji, hq⟩, (hspte j e').mpr ⟨hji, he'⟩, hg'⟩
  · intro q j e' g hj he'
    exact h.resident q j e' g ((hmem q j).mp hj).2 ((hspte j e').mp he').2
  · intro q pd u hq hu
    obtain ⟨j, e', hj, he', hup, hr⟩ := h.present q pd u hq hu
    have hji : j ≠ i := by grind
    exact ⟨j, e', (hmem q j).mpr ⟨hji, hj⟩, (hspte j e').mpr ⟨hji, he'⟩, hup, hr⟩
  · intro q j hj
    obtain ⟨hji, hj⟩ := (hmem q j).mp hj
    obtain ⟨e', he', hrest⟩ := h.entry q j hj
    exact ⟨e', (hspte j e').mpr ⟨hji, he'⟩, hrest⟩
  · intro j e' hj
    obtain ⟨hji, hj⟩ := (hspte j e').mp hj
    obtain ⟨q, hq⟩ := h.owned j e' hj
    exact ⟨q, (hmem q j).mpr ⟨hji, hq⟩⟩
  · intro q
    by_cases hqp : q = p
    · subst hqp
      simpa [VmState.entryFreed] using (h.spt_nodup q).erase i
    · simpa [VmState.entryFreed, hqp] using h.spt_nodup q
  · intro q q' j hj hj'
    exact h.spt_disjoint q q' j ((hmem q j).mp hj).2 ((hmem q' j).mp hj').2
  · intro q j k e1 e2 hj hk h1 h2
    exact h.upage_inj q j k e1 e2 ((hmem q j).mp hj).2 ((hmem q k).mp hk).2
      ((hspte j e1).mp h1).2 ((hspte k e2).mp h2).2
  · intro q j hj
    exact h.live q j ((hmem q j).mp hj).2
  · intro q j e' hj he'
    exact h.swapped q j e' ((hmem q j).mp hj).2 ((hspte j e').mp he').2

theorem Consistent.spt_eq_nil (h : Consistent fl s) (hp : s.pagedir p = none) :
    s.spt p = [] := by
  refine List.eq_nil_iff_forall_not_mem.mpr fun i hi => ?_
  have := h.live p i hi
  simp [hp] at this

/-- The directory of a process without entries may begin empty, or end. -/
theorem Consistent.update_pagedir (h : Consistent fl s) (hp : s.spt p = [])
    {o : Option PageDir} (ho : o = none ∨ o = some pagedirCreate) :
    Consistent fl { s with pagedir := Function.update s.pagedir p o } := by
  have hq : ∀ q i, i ∈ s.spt q → q ≠ p := by grind
  have hnone : ∀ pd u, o = some pd → pagedirGetPage pd u = none := by
    rintro pd u rfl
    obtain rfl : pd = pagedirCreate := by simpa using ho
    exact pagedirGetPage_create u
  have hpdc : ∀ q pd u, Function.update s.pagedir p o q = some pd →
      pagedirGetPage pd u ≠ none → s.pagedir q = some pd := by
    intro q pd u hpd hu
    by_cases hqp : q = p
    · subst hqp
      exact absurd (hnone pd u (by simpa using hpd)) hu
    · simpa [hqp] using hpd
  refine { h with resident := ?_, present := ?_, dirty_writable := ?_, live := ?_, swapped := ?_ }
  · intro q j e f hj he hf
    obtain ⟨hq', fr, pd, hfr, hj', hpd, hrest⟩ := h.resident q j e f hj he hf
    exact ⟨hq', fr, pd, hfr, hj', by simp [hq q j hj, hpd], hrest⟩
  · intro q pd u hpd hu
    exact h.present q pd u (hpdc q pd u hpd hu) hu
  · intro q pd u hpd hu
    exact h.dirty_writable q pd u (hpdc q pd u hpd hu) hu
  · intro q j hj
    simpa [hq q j hj] using h.live q j hj
  · intro q j e hj he hswap
    refine ⟨(h.swapped q j e hj he hswap).1, fun pd hpd => ?_⟩
    exact (h.swapped q j e hj he hswap).2 pd (by simpa [hq q j hj] using hpd)

/-- Every effect of a page function keeps the tables in agreement. -/
theorem PageEffect.consistent (heff : PageEffect fl s L fl' t)
    (h : Consistent fl s) : Consistent fl' t := by
  cases heff with
  | quiet hm => exact h.congr hm
  | touch hpd hsame hm =>
    exact (h.setPagedir hpd hsame.getPage hsame.writable hsame.table
      fun u hd => .inl (hsame.isDirty u ▸ hd)).congr hm
  | pin hf b hm => exact (h.setFrame_pinned hf b).congr hm
  | insert hi hp hu hn hf ht _ hm => exact (h.insert hi hp hu hn hf ht.1).congr hm
  | @evictClean _ _ v fr i p e pd hv _ hi he hev hpd _ ht hm =>
    exact (h.unmapped { e with frame := none } hv hi he hev hpd rfl rfl rfl
      fun hs => absurd hs ht).congr hm
  | @evictAlloc _ _ v fr i p e pd n hv _ hi he hev hpd hd ht _ _ hm =>
    have hwr : e.writable = true := by
      obtain ⟨-, fr', pd', -, -, hpd', hget, hw⟩ := h.resident p i e v hi he hev
      cases hpd.symm.trans hpd'
      by_cases hsw : e.type = .swap
      · exact (h.swapped p i e hi he hsw).1
      · exact hw ▸ h.dirty_writable p pd e.upage hpd (by simp [hget]) (hd hsw)
    exact Consistent.congr hm
      { h.unmapped { e with frame := none, type := .swap, swapSlot := n * SECTORS_PER_PAGE }
          hv hi he hev hpd rfl rfl rfl fun _ => hwr with }
  | @evictKeep _ _ v fr i p e pd hv _ hi he hev hpd ht _ hm =>
    exact Consistent.congr hm
      { h.unmapped { e with frame := none } hv hi he hev hpd rfl rfl rfl
          (h.swapped _ _ _ hi he · |>.1) with }
  | palloc hk hb hm => exact (h.palloc hk hb).congr hm
  | push hf hm => exact (h.push _ hf).congr hm
  | discard hf hm => exact ((h.pop hf).poolFreed _).congr hm
  | attach hf hi he hpd hinst _ hm =>
    exact (h.attached _ _ hf hi he hpd hinst rfl rfl rfl).congr hm
  | @attachFree _ _ f fr i p e pd pd' b d hf hi he hpd hinst _ _ hm =>
    exact Consistent.congr hm
      { h.attached { e with swapSlot := 0 } d hf hi he hpd hinst rfl rfl rfl with }

theorem EndEffect.consistent
    (heff : EndEffect p i e s L t) (hi : i ∈ s.spt p) (he : s.spte i = some e)
    (h : Consistent .idle s) : Consistent .idle t := by
  cases heff with
  | remove hf _ hm => exact (h.entryFreed hi he hf).congr hm
  | removeFree hf _ hm => exact Consistent.congr hm { h.entryFreed hi he hf with }
  | @dispose _ v fr pd d hv hev hpd _ hm =>
    have hu := h.unmapped { e with frame := none } hv hi he hev hpd rfl rfl rfl
      (h.swapped _ _ _ hi he · |>.1)
    exact ((hu.poolFreed d).entryFreed hi (Function.update_self ..) rfl).congr hm
  | @disposeFree _ v fr pd d hv hev hpd _ _ hm =>
    have hu := h.unmapped { e with frame := none } hv hi he hev hpd rfl rfl rfl
      (h.swapped _ _ _ hi he · |>.1)
    exact Consistent.congr hm
      { (hu.poolFreed d).entryFreed hi (Function.update_self ..) rfl with }

theorem Effect.consistent (heff : Effect fl s L fl' t)
    (h : Consistent fl s) : Consistent fl' t := by
  cases heff with
  | page hp => exact hp.consistent h
  | @store _ _ p pd u k d hpd hk hw hm =>
    have hs := h.setPagedir hpd (pagedirGetPage_mmuAccess pd u · true)
      (mmuWritable_mmuAccess pd u · true) rfl fun va hd => by
        rw [pagedirIsDirty_mmuAccess _ _ _ _ (by simp [hk])] at hd
        by_cases hva : pgRoundDown va = pgRoundDown u
        · exact .inr ((mmuWritable_of_same hva).trans hw)
        · exact .inl (by simpa [hva] using hd)
    exact Consistent.congr hm { hs with }
  | map hi hp hu hn hf ht hm => exact (h.insert hi hp hu hn hf ht.1).congr hm
  | finish hi he hend => exact hend.consistent hi he h
  | create hp hm => exact (h.update_pagedir (h.spt_eq_nil hp) (.inr rfl)).congr hm
  | destroy hp hm => exact (h.update_pagedir hp (.inl rfl)).congr hm

theorem EffectPath.consistent
    (hp : EffectPath (fl, s) L (fl', t)) (h : Consistent fl s) : Consistent fl' t :=
  Base.Path.preserves (P := fun _ a => Consistent a.1 a.2) (fun heff ha => heff.consistent ha)
    (D := []) hp h

end Pintos.Vm

import Pintos.Base.SecondChance
import Pintos.Vm.ClockHand
import Pintos.Vm.Reachable

/-!
# The clock

The loop of `do_eviction` has no counter: it ends because a frame that the hand has passed over
has lost its accessed bit when the hand comes round again. The hand's walk through the frame
table and its tail is a walk round a ring, and `SecondChance` gives the bound.
Source `vm/frame.c:67–132`, `userprog/pagedir.c:189–216`.
-/

namespace Pintos.Vm

open Pintos.Base Pintos.Threads Pintos.Userprog

/-- The body of the loop at frame `v`, if it ends in `continue`, `vm/frame.c:82–96`. -/
def clockVisit (s : VmState) (v : FrameAddr) : Option VmState := do
  let victim ← s.frame v
  let s := { s with clockHand := listNext s.frameTable v }
  if victim.pinned then some s
  else match victim.spte with
    | none => some s
    | some i =>
      let e ← s.spte i
      let (p, pd) ← ownerPagedir s e
      if pagedirIsAccessed pd e.upage then
        some (s.setPagedir p (pagedirSetAccessed pd e.upage false))
      else none

/-- The accessed bit of a frame is that of the page its entry describes. -/
def frameAccessed (s : VmState) (f : FrameAddr) : Bool :=
  ((s.frame f).bind Frame.spte).elim false fun i =>
    (s.spte i).elim false fun e =>
      (ownerPagedir s e).elim false fun d => pagedirIsAccessed d.2 e.upage

/-- The page a frame's entry describes, and the process it belongs to. -/
def framePlace (s : VmState) (f : FrameAddr) : Option (Pid × Addr) := do
  let fr ← s.frame f
  let i ← fr.spte
  let e ← s.spte i
  let p ← e.pagedir
  some (p, pgRoundDown e.upage)

/-- The frame table lists live frames, each once, and their entries are live and name a live
page directory: no pointer that the loop follows dangles. -/
structure ClockReady (s : VmState) : Prop extends TableOk s where
  entry : ∀ f ∈ s.frameTable, ∀ fr, s.frame f = some fr → ∀ i, fr.spte = some i →
    ∃ e p pd, s.spte i = some e ∧ e.pagedir = some p ∧ s.pagedir p = some pd

variable {s t u : VmState}

private theorem Consistent.clockReady (h : Consistent .idle s) : ClockReady s where
  nodup := h.table_nodup
  allocated := fun f hf => (h.mem_table f).mp hf
  entry := by
    intro f _ fr hfr i hi
    obtain ⟨p, j, e, hj, hp, he, hf⟩ := h.linked f fr hfr (by simp)
    cases hi.symm.trans hj
    obtain ⟨hown, -, pd, -, -, hpd, -⟩ := h.resident p i e f hp he hf
    exact ⟨e, p, pd, he, hown, hpd⟩

private theorem pagedirIsAccessed_setAccessed (pd : PageDir) (v va : Addr) :
    pagedirIsAccessed (pagedirSetAccessed pd v false) va =
      if pgRoundDown va = pgRoundDown v then false else pagedirIsAccessed pd va := by
  unfold pagedirIsAccessed pagedirSetAccessed
  rw [lookupPage_modify]
  by_cases hp : pgRoundDown va = pgRoundDown v
  · cases lookupPage pd va <;> simp [hp]
  · simp [hp]

/-- The hand has passed over the frames `passed`: only the hand has moved, and accessed bits of
pages of these frames have been cleared. -/
structure PassedOver (passed : List FrameAddr) (s t : VmState) : Prop where
  rest : t = { s with clockHand := t.clockHand, pagedir := t.pagedir }
  directory : ∀ p, (t.pagedir p).isSome = (s.pagedir p).isSome
  mapping : ∀ p pd pd', s.pagedir p = some pd → t.pagedir p = some pd' → SameMapping pd pd'
  accessed : ∀ p pd pd' va, s.pagedir p = some pd → t.pagedir p = some pd' →
    pagedirIsAccessed pd' va = pagedirIsAccessed pd va ∨
      pagedirIsAccessed pd va = true ∧ pagedirIsAccessed pd' va = false ∧
        ∃ f ∈ passed, framePlace s f = some (p, pgRoundDown va)

private theorem SameMapping.trans {a b c : PageDir} (h : SameMapping a b) (h' : SameMapping b c) :
    SameMapping a c :=
  ⟨fun u => (h'.getPage u).trans (h.getPage u), fun u => (h'.isDirty u).trans (h.isDirty u),
    fun u => (h'.writable u).trans (h.writable u), h'.table.trans h.table⟩

namespace PassedOver

variable {passed : List FrameAddr}

private theorem frame (h : PassedOver passed s t) : t.frame = s.frame := by rw [h.rest]

private theorem frameTable (h : PassedOver passed s t) :
    t.frameTable = s.frameTable := by rw [h.rest]

private theorem spte (h : PassedOver passed s t) : t.spte = s.spte := by rw [h.rest]

private theorem framePlace_eq (h : PassedOver passed s t) (f : FrameAddr) :
    framePlace t f = framePlace s f := by
  rw [h.rest]
  rfl

private theorem clockReady (h : PassedOver passed s t) (hs : ClockReady s) : ClockReady t := by
  constructor
  · constructor
    · rw [h.frameTable]
      exact hs.nodup
    · rw [h.frameTable, h.frame]
      exact hs.allocated
  · rw [h.frameTable, h.frame, h.spte]
    intro f hf fr hfr i hi
    obtain ⟨e, p, pd, he, hp, hpd⟩ := hs.entry f hf fr hfr i hi
    have hsome := h.directory p
    rw [hpd] at hsome
    obtain ⟨pd', hpd'⟩ := Option.isSome_iff_exists.mp hsome
    exact ⟨e, p, pd', he, hp, hpd'⟩

private theorem refl (s : VmState) : PassedOver [] s s where
  rest := rfl
  directory := fun _ => rfl
  mapping := by
    intro p pd pd' h h'
    cases h.symm.trans h'
    exact ⟨fun _ => rfl, fun _ => rfl, fun _ => rfl, rfl⟩
  accessed := by
    intro p pd pd' va h h'
    cases h.symm.trans h'
    exact .inl rfl

private theorem cons {f : FrameAddr} (h : PassedOver [f] s t) (h' : PassedOver passed t u) :
    PassedOver (f :: passed) s u where
  rest := by
    rw [h'.rest, h.rest]
  directory := fun p => (h'.directory p).trans (h.directory p)
  mapping := by
    intro p pd pd'' hs hu
    have hsome := h.directory p
    rw [hs] at hsome
    obtain ⟨pd', ht⟩ := Option.isSome_iff_exists.mp hsome
    exact (h.mapping p pd pd' hs ht).trans (h'.mapping p pd' pd'' ht hu)
  accessed := by
    intro p pd pd'' va hs hu
    have hsome := h.directory p
    rw [hs] at hsome
    obtain ⟨pd', ht⟩ := Option.isSome_iff_exists.mp hsome
    rcases h'.accessed p pd' pd'' va ht hu with heq' | ⟨hset, hclear, g, hg, hplace⟩
    · rcases h.accessed p pd pd' va hs ht with heq | ⟨hset, hclear, g, hg, hplace⟩
      · exact .inl (heq'.trans heq)
      · refine .inr ⟨hset, heq'.trans hclear, g, ?_, hplace⟩
        rw [List.mem_singleton.mp hg]
        exact List.mem_cons_self
    · rw [h.framePlace_eq] at hplace
      rcases h.accessed p pd pd' va hs ht with heq | ⟨-, hclear', -⟩
      · exact .inr ⟨heq.symm.trans hset, hclear, g, List.mem_cons_of_mem f hg, hplace⟩
      · rw [hclear'] at hset
        cases hset

end PassedOver

private theorem passedOver_of_visit {v : FrameAddr} (h : clockVisit s v = some t) :
    PassedOver [v] s t ∧ t.clockHand = listNext s.frameTable v := by
  have hhand : PassedOver [v] s { s with clockHand := listNext s.frameTable v } :=
    { PassedOver.refl s with
      rest := rfl
      accessed := fun p pd pd' va hs ht => by
        cases hs.symm.trans ht
        exact .inl rfl }
  simp only [clockVisit, Option.bind_eq_bind, Option.bind_eq_some_iff] at h
  obtain ⟨fr, hfr, h⟩ := h
  split at h
  · cases h
    exact ⟨hhand, rfl⟩
  · split at h
    · cases h
      exact ⟨hhand, rfl⟩
    · next i hi =>
      simp only [Option.bind_eq_some_iff] at h
      obtain ⟨e, he, ⟨p, pd⟩, howner, h⟩ := h
      obtain ⟨hp, hpd⟩ := ownerPagedir_some howner
      have hplace : framePlace s v = some (p, pgRoundDown e.upage) := by
        simp only [framePlace, hfr, hi, Option.bind_eq_bind, Option.bind_some]
        have he : s.spte i = some e := he
        simp [he, hp]
      have hpd : s.pagedir p = some pd := hpd
      dsimp only at h
      split at h
      · next hacc =>
        cases h
        refine ⟨⟨rfl, fun q => ?_, fun q a b ha hb => ?_, fun q a b va ha hb => ?_⟩, rfl⟩
        · by_cases hq : q = p
          · simp [VmState.setPagedir, hq, hpd]
          · simp [VmState.setPagedir, hq]
        · by_cases hq : q = p
          · subst hq
            cases ha.symm.trans hpd
            simp only [VmState.setPagedir, Function.update_self, Option.some.injEq] at hb
            cases hb
            exact ⟨fun _ => by simp, fun _ => by simp, fun _ => by simp, rfl⟩
          · simp only [VmState.setPagedir, Function.update_of_ne hq] at hb
            cases ha.symm.trans hb
            exact ⟨fun _ => rfl, fun _ => rfl, fun _ => rfl, rfl⟩
        · by_cases hq : q = p
          · subst hq
            cases ha.symm.trans hpd
            simp only [VmState.setPagedir, Function.update_self, Option.some.injEq] at hb
            cases hb
            rw [pagedirIsAccessed_setAccessed]
            by_cases hva : pgRoundDown va = pgRoundDown e.upage
            · rw [if_pos hva]
              cases hold : pagedirIsAccessed pd va with
              | false => exact .inl rfl
              | true =>
                rw [← hva] at hplace
                exact .inr ⟨rfl, rfl, v, List.mem_singleton_self v, hplace⟩
            · exact .inl (if_neg hva)
          · simp only [VmState.setPagedir, Function.update_of_ne hq] at hb
            cases ha.symm.trans hb
            exact .inl rfl
      · cases h

private theorem passedOver_of_run {passed : List FrameAddr} (h : run clockVisit s passed = some t) :
    PassedOver passed s t := by
  induction passed generalizing s with
  | nil =>
    cases h
    exact .refl _
  | cons v passed ih =>
    obtain ⟨m, hm, hrest⟩ := run_cons_some h
    exact (passedOver_of_visit hm).1.cons (ih hrest)

/-! ## The hand on its ring -/

/-- The frame table as the hand is going to visit it. -/
def Ring (s : VmState) (ring : List FrameAddr) : Prop :=
  ∃ pre post, s.frameTable = pre ++ post ∧ ring = post ++ pre ∧ clockStart s = listBegin ring

private theorem HandValid.ring (h : HandValid s) : ∃ ring, Ring s ring := by
  cases hhand : s.clockHand with
  | null | tail => exact ⟨s.frameTable, [], s.frameTable, rfl, by simp, by simp [clockStart, hhand]⟩
  | elem f =>
    rw [HandValid, hhand] at h
    obtain ⟨pre, post, htable⟩ := List.append_of_mem h
    exact ⟨f :: post ++ pre, pre, f :: post, htable, rfl, by simp [clockStart, hhand, listBegin]⟩

private theorem listNext_append {pre post : List FrameAddr} {v : FrameAddr} (h : v ∉ pre) :
    listNext (pre ++ v :: post) v = listBegin post := by
  induction pre with
  | nil => simp [listNext]
  | cons g pre ih =>
    rw [List.mem_cons, not_or] at h
    rw [List.cons_append, listNext, if_neg (Ne.symm h.1)]
    exact ih h.2

/-- What the next round starts with, once the hand stands at the end of `pre`. -/
private theorem clockStart_of_hand {pre post : List FrameAddr}
    (htable : s.frameTable = pre ++ post) (hhand : s.clockHand = listBegin post) :
    clockStart s = listBegin (post ++ pre) := by
  cases post with
  | nil => simp [clockStart, hhand, htable, listBegin]
  | cons g post => simp [clockStart, hhand, listBegin]

private theorem Ring.visit {v : FrameAddr} {ring : List FrameAddr} (h : Ring s (v :: ring))
    (hd : s.frameTable.Nodup) (hv : clockVisit s v = some t) : Ring t (ring ++ [v]) := by
  obtain ⟨pre, post, htable, hring, -⟩ := h
  obtain ⟨hpass, hhand⟩ := passedOver_of_visit hv
  rw [htable] at hd hhand
  cases post with
  | nil =>
    -- The hand has wrapped round the tail of the table.
    obtain rfl : v :: ring = pre := by simpa using hring
    refine ⟨[v], ring, ?_, rfl, ?_⟩
    · rw [hpass.frameTable, htable]
      simp
    · apply clockStart_of_hand
      · rw [hpass.frameTable, htable]
        simp
      · rw [hhand, List.append_nil]
        exact @listNext_append [] ring v (by simp)
  | cons w post =>
    obtain ⟨rfl, rfl⟩ : v = w ∧ ring = post ++ pre := by simpa using hring
    have hnot : v ∉ pre := fun hmem =>
      List.disjoint_of_nodup_append hd hmem List.mem_cons_self
    refine ⟨pre ++ [v], post, ?_, by simp, ?_⟩
    · rw [hpass.frameTable, htable]
      simp
    · rw [List.append_assoc]
      apply clockStart_of_hand
      · rw [hpass.frameTable, htable]
        simp
      · rw [hhand]
        exact listNext_append hnot

private theorem clockSelect_of_visit {v : FrameAddr} (n : Nat) (hstart : clockStart s = .elem v)
    (hmem : v ∈ s.frameTable) (h : clockVisit s v = some t) :
    clockSelect (n + 1) s = clockSelect n t := by
  simp only [clockVisit, Option.bind_eq_bind, Option.bind_eq_some_iff] at h
  obtain ⟨fr, hfr, h⟩ := h
  simp only [clockSelect, hstart, if_pos hmem, hfr, Option.bind_eq_bind, Option.bind_some]
  split at h
  · next hpin =>
    cases h
    rw [if_pos hpin]
  · next hpin =>
    rw [if_neg hpin]
    cases hi : fr.spte with
    | none =>
      simp only [hi, Option.some.injEq] at h
      rw [h]
    | some i =>
      simp only [hi, Option.bind_eq_some_iff] at h
      obtain ⟨e, he, ⟨p, pd⟩, howner, h⟩ := h
      dsimp only at h
      split at h
      · next hacc =>
        cases h
        simp [he, howner, hacc]
      · cases h

private theorem Ring.clockSelect {passed ring : List FrameAddr} {v : FrameAddr} (h : Ring s ring)
    (hd : s.frameTable.Nodup) (hpre : passed ++ [v] <+: ring ++ ring)
    (hr : run clockVisit s passed = some t) :
    clockStart t = .elem v ∧ v ∈ s.frameTable ∧
      ∀ n, Vm.clockSelect (passed.length + n) s = Vm.clockSelect n t := by
  have hsub : ∀ {f}, f ∈ ring → f ∈ s.frameTable := by
    intro f hf
    obtain ⟨pre, post, htable, hring, -⟩ := h
    rw [htable, List.mem_append]
    rw [hring, List.mem_append] at hf
    exact hf.symm
  induction passed generalizing s ring with
  | nil =>
    cases hr
    obtain ⟨_, _, -, -, hstart⟩ := h
    cases ring with
    | nil => simp at hpre
    | cons w ring =>
      obtain rfl : v = w := by simpa using hpre
      exact ⟨hstart, hsub List.mem_cons_self, fun n => by simp⟩
  | cons w passed ih =>
    obtain ⟨m, hm, hrest⟩ := run_cons_some hr
    cases ring with
    | nil => simp at hpre
    | cons w' ring =>
      obtain ⟨rfl, hpre⟩ : w = w' ∧ passed ++ [v] <+: ring ++ w' :: ring := by
        simpa [List.cons_prefix_cons] using hpre
      have hpass := (passedOver_of_visit hm).1
      have hstart : clockStart s = .elem w := by
        obtain ⟨_, _, -, -, hstart⟩ := h
        exact hstart
      have hw : w ∈ s.frameTable := hsub List.mem_cons_self
      have hlong : passed ++ [v] <+: (ring ++ [w]) ++ (ring ++ [w]) := by
        refine hpre.trans ⟨[w], ?_⟩
        simp
      have hsub' : ∀ {f}, f ∈ ring ++ [w] → f ∈ m.frameTable := by
        intro f hf
        rw [hpass.frameTable]
        apply hsub
        rw [List.mem_append, List.mem_singleton] at hf
        exact List.mem_cons.mpr hf.symm
      obtain ⟨hv, hmem, hsel⟩ := ih (h.visit hd hm) (hpass.frameTable ▸ hd) hlong hrest hsub'
      refine ⟨hv, hpass.frameTable ▸ hmem, fun n => ?_⟩
      rw [List.length_cons, Nat.add_right_comm, clockSelect_of_visit _ hstart hw hm]
      exact hsel n

/-! ## The victim -/

private theorem ClockReady.exists_of_evictable {f : FrameAddr} (h : ClockReady s)
    (hf : evictable s f = true) : ∃ fr i e p pd, s.frame f = some fr ∧ fr.pinned = false ∧
      fr.spte = some i ∧ s.spte i = some e ∧ ownerPagedir s e = some (p, pd) ∧
      frameAccessed s f = pagedirIsAccessed pd e.upage := by
  simp only [evictable, Bool.and_eq_true, decide_eq_true_eq, Option.any_eq_true,
    Bool.not_eq_true'] at hf
  obtain ⟨hmem, fr, hfr, hpin, hi⟩ := hf
  obtain ⟨i, hi⟩ := Option.isSome_iff_exists.mp hi
  obtain ⟨e, p, pd, he, hp, hpd⟩ := h.entry f hmem fr hfr i hi
  have howner : ownerPagedir s e = some (p, pd) := by simp [ownerPagedir, hp, hpd]
  exact ⟨fr, i, e, p, pd, hfr, hpin, hi, he, howner, by simp [frameAccessed, hfr, hi, he, howner]⟩

/-- A frame that can be evicted is chosen exactly if its accessed bit is clear. -/
private theorem ClockReady.clockVisit_eq_none_iff {f : FrameAddr} (h : ClockReady s)
    (hf : evictable s f = true) : clockVisit s f = none ↔ frameAccessed s f = false := by
  obtain ⟨fr, i, e, p, pd, hfr, hpin, hi, he, howner, hacc⟩ := h.exists_of_evictable hf
  have howner' : ownerPagedir { s with clockHand := listNext s.frameTable f } e = some (p, pd) :=
    howner
  rw [hacc]
  cases hbit : pagedirIsAccessed pd e.upage with
  | false => simp [clockVisit, hfr, hpin, hi, he, howner', hbit]
  | true => simp [clockVisit, hfr, hpin, hi, he, howner', hbit]

private theorem ClockReady.evictable_of_visit {f : FrameAddr} (h : ClockReady s)
    (hf : f ∈ s.frameTable) (hv : clockVisit s f = none) : evictable s f = true := by
  obtain ⟨fr, hfr⟩ := Option.isSome_iff_exists.mp (h.allocated f hf)
  cases hpin : fr.pinned with
  | true => simp [clockVisit, hfr, hpin] at hv
  | false =>
    cases hi : fr.spte with
    | none => simp [clockVisit, hfr, hpin, hi] at hv
    | some i => simp [evictable, hf, hfr, hpin, hi]

private theorem ClockReady.clockSelect_of_visit_eq_none {f : FrameAddr} (h : ClockReady s)
    (hstart : clockStart s = .elem f) (hf : f ∈ s.frameTable) (hv : clockVisit s f = none)
    (n : Nat) : clockSelect (n + 1) s =
      some (f, { s with clockHand := listNext s.frameTable f }) := by
  have hev := h.evictable_of_visit hf hv
  obtain ⟨fr, i, e, p, pd, hfr, hpin, hi, he, howner, hacc⟩ := h.exists_of_evictable hev
  have howner' : ownerPagedir { s with clockHand := listNext s.frameTable f } e = some (p, pd) :=
    howner
  rw [(h.clockVisit_eq_none_iff hev).mp hv] at hacc
  simp [clockSelect, hstart, hf, hfr, hpin, hi, he, howner', ← hacc]

/-- A frame's accessed bit changes only by being cleared, when a frame that holds the same page
is passed over. -/
theorem PassedOver.frameAccessed {passed : List FrameAddr} (h : PassedOver passed s t)
    (f : FrameAddr) : frameAccessed t f = frameAccessed s f ∨
      frameAccessed s f = true ∧ frameAccessed t f = false ∧
        ∃ g ∈ passed, framePlace s f ≠ none ∧ framePlace s g = framePlace s f := by
  simp only [Vm.frameAccessed, Vm.framePlace, h.frame, h.spte]
  cases hfr : s.frame f with
  | none => simp
  | some fr =>
    cases hi : fr.spte with
    | none => simp [hi]
    | some i =>
      cases he : s.spte i with
      | none => simp [hi, he]
      | some e =>
        cases hp : e.pagedir with
        | none => simp [hi, he, hp, ownerPagedir]
        | some p =>
          have hsome := h.directory p
          cases hs : s.pagedir p with
          | none =>
            rw [hs, Option.isSome_none, Option.isSome_eq_false_iff, Option.isNone_iff_eq_none]
              at hsome
            simp [hi, he, hp, hs, hsome, ownerPagedir]
          | some pd =>
            rw [hs] at hsome
            obtain ⟨pd', ht⟩ := Option.isSome_iff_exists.mp hsome
            rcases h.accessed p pd pd' e.upage hs ht with heq | ⟨hset, hclear, g, hg, hplace⟩
            · simp [hi, he, hp, hs, ht, ownerPagedir, heq]
            · refine .inr ⟨?_, ?_, g, hg, ?_, ?_⟩
              · simp [hi, he, hp, hs, ownerPagedir, hset]
              · simp [hi, he, hp, ht, ownerPagedir, hclear]
              · simp [hi, he, hp]
              · simpa [hi, he, hp, Vm.framePlace] using hplace

private theorem PassedOver.evictable_eq {passed : List FrameAddr} (h : PassedOver passed s t)
    (f : FrameAddr) : evictable t f = evictable s f := by
  rw [evictable, evictable, h.frame, h.frameTable]

/-- The clock gives every frame that can be evicted a second chance, not a third. -/
theorem clock_secondChance (s : VmState) : SecondChance clockVisit
    (fun t => ClockReady t ∧ t.frame = s.frame ∧ t.frameTable = s.frameTable)
    (fun f => evictable s f = true) (fun t f => frameAccessed t f = false) where
  keeps := by
    intro m f t hm hv
    have hpass := (passedOver_of_visit hv).1
    exact ⟨hpass.clockReady hm.1, hpass.frame.trans hm.2.1, hpass.frameTable.trans hm.2.2⟩
  ripens := by
    intro m f t hm hf hv
    have hpass := (passedOver_of_visit hv).1
    have hev : evictable m f = true := by
      rw [evictable, hm.2.1, hm.2.2]
      exact hf
    obtain ⟨fr, i, e, p, pd, hfr, hpin, hi, he, howner, -⟩ := hm.1.exists_of_evictable hev
    have howner' : ownerPagedir { m with clockHand := listNext m.frameTable f } e = some (p, pd) :=
      howner
    obtain ⟨hp, hpd⟩ := ownerPagedir_some howner
    cases hbit : pagedirIsAccessed pd e.upage with
    | false => simp [clockVisit, hfr, hpin, hi, he, howner', hbit] at hv
    | true =>
      simp only [clockVisit, hfr, hpin, hi, he, howner', hbit, Option.bind_eq_bind,
        Option.bind_some, Bool.false_eq_true, if_false, if_true, Option.some.injEq] at hv
      rw [← hv]
      simp [frameAccessed, VmState.setPagedir, hfr, hi, he, ownerPagedir, hp,
        pagedirIsAccessed_setAccessed]
  lasts := by
    intro m f t g hm hv hg
    rcases (passedOver_of_visit hv).1.frameAccessed g with heq | ⟨-, hclear, -⟩
    · exact heq.trans hg
    · exact hclear
  chosen := by
    intro m f hm hf hg
    have hev : evictable m f = true := by
      rw [evictable, hm.2.1, hm.2.2]
      exact hf
    exact (hm.1.clockVisit_eq_none_iff hev).mpr hg

/-- The loop of `do_eviction`: it ends within two rounds, at a frame that can be evicted and has
not been accessed since the hand was there last. -/
theorem ClockReady.exists_victim (h : ClockReady s) (hv : HandValid s)
    (hc : ∃ f, evictable s f = true) : ∃ passed v t,
      run clockVisit s passed = some t ∧ passed.length + 1 ≤ 2 * s.frameTable.length ∧
      clockStart t = .elem v ∧ evictable s v = true ∧ frameAccessed t v = false ∧
      ∀ n, clockSelect (passed.length + 1 + n) s =
        some (v, { t with clockHand := listNext s.frameTable v }) := by
  obtain ⟨ring, hring⟩ := hv.ring
  obtain ⟨f, hf⟩ := hc
  have hperm : ring.length = s.frameTable.length ∧ f ∈ ring := by
    obtain ⟨pre, post, htable, rfl, -⟩ := hring
    have hmem : f ∈ s.frameTable := by
      simp only [evictable, Bool.and_eq_true, decide_eq_true_eq] at hf
      exact hf.1
    rw [htable, List.mem_append] at hmem
    rw [htable, List.length_append, List.length_append, List.mem_append]
    exact ⟨Nat.add_comm .., hmem.symm⟩
  have hstop := (clock_secondChance s).two_rounds ⟨h, rfl, rfl⟩ hperm.2 hf
  obtain ⟨passed, v, t, hpre, hrun, hnone⟩ := exists_of_run_eq_none hstop
  obtain ⟨hstart, hmem, hsel⟩ := hring.clockSelect h.nodup hpre hrun
  have hpass := passedOver_of_run hrun
  have ht := hpass.clockReady h
  have hmem' : v ∈ t.frameTable := by rwa [hpass.frameTable]
  have hev := ht.evictable_of_visit hmem' hnone
  have hlen := hpre.length_le
  rw [List.length_append, List.length_append, List.length_singleton] at hlen
  refine ⟨passed, v, t, hrun, by omega, hstart, hpass.evictable_eq v ▸ hev,
    (ht.clockVisit_eq_none_iff hev).mp hnone, fun n => ?_⟩
  rw [Nat.add_assoc, hsel, Nat.add_comm 1 n, ht.clockSelect_of_visit_eq_none hstart hmem' hnone,
    hpass.frameTable]

/-- Frame `v` is off the table, and its page is not mapped any more; the other frames keep their
place, and their entries and mappings are as before. -/
structure OthersKept (v : FrameAddr) (s u : VmState) : Prop where
  table : u.frameTable = s.frameTable.erase v
  frame : ∀ f, f ≠ v → u.frame f = s.frame f
  entry : ∀ i, (s.frame v).bind Frame.spte ≠ some i → u.spte i = s.spte i
  mapping : ∀ p va, framePlace s v ≠ some (p, pgRoundDown va) →
    (u.pagedir p).bind (pagedirGetPage · va) = (s.pagedir p).bind (pagedirGetPage · va)

private theorem othersKept_unmapped {v : FrameAddr} {fr : Frame} {i : SpteAddr} {p : Pid}
    {e e' : SptEntry} {pd : PageDir} (hfr : s.frame v = some fr) (hi : fr.spte = some i)
    (he : s.spte i = some e) (hp : e.pagedir = some p) (hpd : s.pagedir p = some pd) :
    OthersKept v s (s.unmapped v p pd e.upage i e') where
  table := rfl
  frame := by
    intro f hf
    exact Function.update_of_ne hf _ _
  entry := by
    intro j hj
    have hne : j ≠ i := by
      intro hji
      apply hj
      simp [hfr, hi, hji]
    exact Function.update_of_ne hne _ _
  mapping := by
    intro q va hplace
    by_cases hq : q = p
    · have hva : pgRoundDown va ≠ pgRoundDown e.upage := by
        intro hva
        apply hplace
        simp [framePlace, hfr, hi, he, hp, hq, hva]
      simp [VmState.unmapped, hq, hpd, pagedirGetPage_clearPage, hva]
    · simp [VmState.unmapped, hq]

private theorem Leaves.othersKept {v : FrameAddr} {fr : Frame} {i : SpteAddr} {p : Pid}
    {e : SptEntry} {pd : PageDir} (h : Leaves s v fr i p e pd u) (hfr : s.frame v = some fr)
    (hi : fr.spte = some i) (he : s.spte i = some e) (hp : e.pagedir = some p)
    (hpd : s.pagedir p = some pd) : OthersKept v s u := by
  cases h with
  | clean _ _ => exact othersKept_unmapped hfr hi he hp hpd
  | alloc _ _ _ _ => exact { othersKept_unmapped hfr hi he hp hpd with }
  | keep _ _ => exact { othersKept_unmapped hfr hi he hp hpd with }

private theorem PassedOver.translate {passed : List FrameAddr} (h : PassedOver passed s t)
    (p : Pid) (va : Addr) :
    (t.pagedir p).bind (pagedirGetPage · va) = (s.pagedir p).bind (pagedirGetPage · va) := by
  have hsome := h.directory p
  cases hs : s.pagedir p with
  | none =>
    rw [hs, Option.isSome_none, Option.isSome_eq_false_iff, Option.isNone_iff_eq_none] at hsome
    rw [hsome]
  | some pd =>
    rw [hs] at hsome
    obtain ⟨pd', ht⟩ := Option.isSome_iff_exists.mp hsome
    rw [ht]
    exact (h.mapping p pd pd' hs ht).getPage va

/-- What `do_eviction` leaves of the other frames, once the loop has stopped at `v`. -/
private theorem PassedOver.othersKept {passed : List FrameAddr} {v : FrameAddr} {k : KPage}
    {hand : ClockHand} (h : PassedOver passed s t)
    (hsel : selectVictim .clock s = some (v, { t with clockHand := hand }))
    (he : doEviction .clock s = some (k, u)) : OthersKept v s u := by
  simp only [doEviction, hsel, Option.bind_eq_bind, Option.bind_some, Option.bind_eq_some_iff]
    at he
  obtain ⟨⟨ev, s2⟩, hunmap, hrest⟩ := he
  obtain ⟨fr, i, e, p, pd, hfr, hi, hent, hp, hpd, -, -, -, hleaves⟩ := evict_leaves hunmap hrest
  have hkept := hleaves.othersKept hfr hi hent hp hpd
  refine ⟨?_, fun f hf => ?_, fun j hj => ?_, fun q va hplace => ?_⟩
  · rw [hkept.table, ← h.frameTable]
  · rw [hkept.frame f hf, ← h.frame]
  · rw [← h.frame] at hj
    rw [hkept.entry j hj, ← h.spte]
  · rw [← h.framePlace_eq] at hplace
    rw [hkept.mapping q va hplace]
    exact h.translate q va

/-- On a frame table with a frame that is unpinned and mapped, the clock loop ends after
inspecting at most twice as many frames as there are, plus one, at an unpinned, mapped frame
whose accessed bit is clear. The frames it passed over, and no others, may have lost their
accessed bits, and eviction takes the victim off the table and leaves the others as they were. -/
theorem clock_picks_legal_victim (h : ClockReady s) (hv : HandValid s)
    (hc : ∃ f ∈ s.frameTable, ∃ fr, s.frame f = some fr ∧ fr.pinned = false ∧ fr.spte ≠ none) :
    ∃ passed v t,
      run clockVisit s passed = some t ∧ clockStart t = .elem v ∧
      (∀ n, clockSelect (passed.length + 1 + n) s =
        some (v, { t with clockHand := listNext s.frameTable v })) ∧
      passed.length + 1 ≤ 2 * s.frameTable.length + 1 ∧
      (v ∈ s.frameTable ∧ ∃ fr, s.frame v = some fr ∧ fr.pinned = false ∧ fr.spte ≠ none) ∧
      frameAccessed t v = false ∧
      PassedOver passed s t ∧
      ((∀ f g x, framePlace s f = some x → framePlace s g = some x → f = g) →
        ∀ f, frameAccessed t f ≠ frameAccessed s f → f ∈ passed) ∧
      ∀ k u, doEviction .clock s = some (k, u) → OthersKept v s u := by
  have hev : ∀ f, evictable s f = true ↔
      f ∈ s.frameTable ∧ ∃ fr, s.frame f = some fr ∧ fr.pinned = false ∧ fr.spte ≠ none := by
    intro f
    simp [evictable, Option.any_eq_true, Option.isSome_iff_ne_none]
  obtain ⟨f, hf⟩ := hc
  obtain ⟨passed, v, t, hrun, hlen, hstart, hvict, hclear, hsel⟩ :=
    h.exists_victim hv ⟨f, (hev f).mpr hf⟩
  have hpass := passedOver_of_run hrun
  refine ⟨passed, v, t, hrun, hstart, hsel, by omega, (hev v).mp hvict, hclear, hpass,
    fun hinj g hg => ?_, fun k u he => ?_⟩
  · rcases hpass.frameAccessed g with heq | ⟨-, -, w, hw, hne, hplace⟩
    · exact absurd heq hg
    · obtain ⟨x, hx⟩ := Option.ne_none_iff_exists'.mp hne
      rw [← hinj w g x (hplace.trans hx) hx]
      exact hw
  · have hfuel : 2 * s.frameTable.length + 2 =
        passed.length + 1 + (2 * s.frameTable.length + 1 - passed.length) := by omega
    have hpick : selectVictim .clock s =
        some (v, { t with clockHand := listNext s.frameTable v }) := by
      rw [selectVictim, hfuel]
      exact hsel _
    exact hpass.othersKept hpick he

theorem clock_picks_legal_victim_after_fetch :
    ∃ s, run step (smallMachine 2 4)
        [.exec 0 (some 0) .clock, .exec 1 (some 1) .clock, .call 0 (.fetch 0xbfffff00)] = some s ∧
      ∃ passed v t, run clockVisit s passed = some t ∧ v ∈ s.frameTable ∧
        frameAccessed t v = false ∧ passed.length + 1 ≤ 5 := by
  obtain ⟨s, hrun, hs⟩ := run_reaches step (smallMachine 2 4)
    [.exec 0 (some 0) .clock, .exec 1 (some 1) .clock, .call 0 (.fetch 0xbfffff00)]
    (fun s => decide (HandValid s) && decide (s.frameTable = [4, 10]) &&
      (s.frame 4).any fun fr => !fr.pinned && fr.spte.isSome) (by decide +kernel)
  simp only [Bool.and_eq_true, decide_eq_true_eq, Option.any_eq_true, Bool.not_eq_true'] at hs
  obtain ⟨⟨hhand, htable⟩, fr, hfr, hpin, hspte⟩ := hs
  have hready := (consistent_run hrun).clockReady
  obtain ⟨passed, v, t, hwalk, -, -, hlen, hv, hclear, -⟩ := clock_picks_legal_victim hready hhand
    ⟨4, by simp [htable], fr, hfr, hpin, Option.isSome_iff_ne_none.mp hspte⟩
  rw [htable] at hlen
  exact ⟨s, hrun, passed, v, t, hwalk, hv.1, hclear, hlen⟩

end Pintos.Vm

import Pintos.Vm.Reachable

/-!
# Who owns a swap slot

A slot in use is owned by the entry that `swap_alloc` returned it for. The kernel does not
store ownership: it reads it off `type` and `swap_slot`, and a `swap_slot` of 0 also stands for
no slot. The invariant says where the fields show the owner; slot 0 is the only one that can
lose its owner while in use.
-/

namespace Pintos.Vm

open Pintos.Base Pintos.Threads Pintos.Userprog Pintos.Lib Pintos.Filesys

variable {fl' : Flight} {L : List Nat} {e : SptEntry} {i : SpteAddr}

variable {fl : Flight} {s t : VmState} {D : List Nat}

/-- Slots in use have an owner, or are in `D`, the slots given up. -/
structure SlotsOwned (D : List Nat) (s : VmState) : Prop where
  /-- An owner is marked as being in swap, and its field names the slot. -/
  owner : ∀ i e n, s.spte i = some e → slotOf s.swapLog i = some n →
    e.type = .swap ∧ e.swapSlot = n ∧ n % SECTORS_PER_PAGE = 0 ∧
      bitmapTest s.swapBitmap (n / SECTORS_PER_PAGE) = true
  /-- The fields of a page in swap name its slot unless the page is resident and the field 0. -/
  field : ∀ i e, s.spte i = some e → e.type = .swap → (e.frame = none ∨ e.swapSlot ≠ 0) →
    slotOf s.swapLog i = some e.swapSlot
  unique : ∀ i j e e' n, s.spte i = some e → s.spte j = some e' →
    slotOf s.swapLog i = some n → slotOf s.swapLog j = some n → i = j
  used : ∀ k, bitmapTest s.swapBitmap k = true →
    (∃ i e, s.spte i = some e ∧ slotOf s.swapLog i = some (k * SECTORS_PER_PAGE)) ∨
      k * SECTORS_PER_PAGE ∈ D
  given : ∀ n ∈ D, n = 0

theorem slotsOwned_init (pages slots : Nat) (mem : KPage → PageData) (device : Nat → SectorData)
    (inode : InodeNo → Inode) (heap : Nat → Option Nat) :
    SlotsOwned [] (VmState.init pages slots mem device inode heap) := by
  constructor <;> simp [VmState.init]

/-- The invariant speaks about entries, the log and the bitmap only. -/
private theorem SlotsOwned.of_eq (h : SlotsOwned D s) (hspte : t.spte = s.spte)
    (hlog : t.swapLog = s.swapLog) (hbit : t.swapBitmap = s.swapBitmap) : SlotsOwned D t := by
  constructor
  · rw [hspte, hlog, hbit]; exact h.owner
  · rw [hspte, hlog]; exact h.field
  · rw [hspte, hlog]; exact h.unique
  · rw [hspte, hlog, hbit]; exact h.used
  · exact h.given

private theorem SlotsOwned.congr (hm : SameMemory s t) (h : SlotsOwned D s) : SlotsOwned D t :=
  h.of_eq hm.spte hm.swapLog hm.swapBitmap

private theorem update_cases {j : SpteAddr} {o : Option SptEntry}
    (h : Function.update s.spte i o j = some e) :
    (j = i ∧ o = some e) ∨ (j ≠ i ∧ s.spte j = some e) := by
  by_cases hji : j = i
  · subst hji
    exact .inl ⟨rfl, by simpa using h⟩
  · exact .inr ⟨hji, by simpa [hji] using h⟩

private theorem SlotsOwned.relink (h : SlotsOwned D s) {e' : SptEntry}
    (he : s.spte i = some e) (hspte : t.spte = Function.update s.spte i (some e'))
    (hlog : t.swapLog = s.swapLog) (hbit : t.swapBitmap = s.swapBitmap)
    (htype : e'.type = e.type) (hslot : e'.swapSlot = e.swapSlot)
    (hframe : e.type = .swap → e'.frame = none → e.frame = none ∨ e.swapSlot ≠ 0) :
    SlotsOwned D t := by
  constructor
  · intro j ej n hj hn
    rw [hspte] at hj
    rw [hlog] at hn
    rw [hbit]
    rcases update_cases hj with ⟨rfl, hej⟩ | ⟨-, hj'⟩
    · cases hej
      rw [htype, hslot]
      exact h.owner j e n he hn
    · exact h.owner j ej n hj' hn
  · intro j ej hj ht hf
    rw [hspte] at hj
    rw [hlog]
    rcases update_cases hj with ⟨rfl, hej⟩ | ⟨-, hj'⟩
    · cases hej
      rw [hslot]
      refine h.field j e he (htype ▸ ht) ?_
      rcases hf with hf | hf
      · exact hframe (htype ▸ ht) hf
      · exact .inr (hslot ▸ hf)
    · exact h.field j ej hj' ht hf
  · have hlive : ∀ j ej, t.spte j = some ej → ∃ ej', s.spte j = some ej' := by
      intro j ej hj
      rw [hspte] at hj
      rcases update_cases hj with ⟨rfl, -⟩ | ⟨-, hj'⟩
      · exact ⟨e, he⟩
      · exact ⟨ej, hj'⟩
    intro j k ej ek n hj hk hjn hkn
    obtain ⟨ej', hj'⟩ := hlive j ej hj
    obtain ⟨ek', hk'⟩ := hlive k ek hk
    rw [hlog] at hjn hkn
    exact h.unique j k ej' ek' n hj' hk' hjn hkn
  · intro k hk
    rw [hbit] at hk
    refine (h.used k hk).imp_left ?_
    rintro ⟨j, ej, hj, hjn⟩
    rw [hlog, hspte]
    by_cases hji : j = i
    · exact ⟨j, e', by simp [hji], hjn⟩
    · exact ⟨j, ej, by simp [hji, hj], hjn⟩
  · exact h.given

private theorem SlotsOwned.birth (h : SlotsOwned D s)
    (hi : s.spte i = none) (ht : e.type ≠ .swap)
    (hspte : t.spte = Function.update s.spte i (some e))
    (hlog : t.swapLog = .birth i :: s.swapLog) (hbit : t.swapBitmap = s.swapBitmap) :
    SlotsOwned D t := by
  have hold : ∀ j, j ≠ i → slotOf t.swapLog j = slotOf s.swapLog j := by
    intro j hji
    rw [hlog, slotOf, if_neg hji.symm]
  have hnew : slotOf t.swapLog i = none := by rw [hlog, slotOf, if_pos rfl]
  constructor
  · intro j ej n hj hn
    rw [hspte] at hj
    rcases update_cases hj with ⟨rfl, -⟩ | ⟨hji, hj'⟩
    · simp [hnew] at hn
    · rw [hbit]
      exact h.owner j ej n hj' (hold j hji ▸ hn)
  · intro j ej hj htj hf
    rw [hspte] at hj
    rcases update_cases hj with ⟨-, hej⟩ | ⟨hji, hj'⟩
    · cases hej
      exact absurd htj ht
    · rw [hold j hji]
      exact h.field j ej hj' htj hf
  · intro j k ej ek n hj hk hjn hkn
    rw [hspte] at hj hk
    rcases update_cases hj with ⟨rfl, -⟩ | ⟨hji, hj'⟩
    · simp [hnew] at hjn
    · rcases update_cases hk with ⟨rfl, -⟩ | ⟨hki, hk'⟩
      · simp [hnew] at hkn
      · exact h.unique j k ej ek n hj' hk' (hold j hji ▸ hjn) (hold k hki ▸ hkn)
  · intro k hk
    rw [hbit] at hk
    refine (h.used k hk).imp_left ?_
    rintro ⟨j, ej, hj, hjn⟩
    have hji : j ≠ i := by
      rintro rfl
      cases hi.symm.trans hj
    exact ⟨j, ej, by simp [hspte, hji, hj], (hold j hji).trans hjn⟩
  · exact h.given

/-- What an entry gives up when its fields hide its slot is slot 0 at most. -/
private theorem SlotsOwned.hidden (h : SlotsOwned D s)
    (he : s.spte i = some e) (hk : e.type ≠ .swap ∨ e.swapSlot = 0) :
    ∀ n ∈ (slotOf s.swapLog i).toList ++ D, n = 0 := by
  intro n hn
  rcases List.mem_append.mp hn with hn | hn
  · obtain ⟨ht, hslot, -⟩ := h.owner i e n he (Option.mem_toList.mp hn)
    rcases hk with hk | hk
    · exact absurd ht hk
    · exact hslot.symm.trans hk
  · exact h.given n hn

private theorem SlotsOwned.alloc (h : SlotsOwned D s) {e' : SptEntry} {n : Nat}
    (he : s.spte i = some e) (hk : e.type ≠ .swap ∨ e.swapSlot = 0)
    (hn : n < s.swapBitmap.length) (hfree : bitmapTest s.swapBitmap n = false)
    (htype : e'.type = .swap) (hslot : e'.swapSlot = n * SECTORS_PER_PAGE)
    (hspte : t.spte = Function.update s.spte i (some e'))
    (hlog : t.swapLog = .alloc i (n * SECTORS_PER_PAGE) :: s.swapLog)
    (hbit : t.swapBitmap = bitmapSet s.swapBitmap n true) :
    SlotsOwned ((slotOf s.swapLog i).toList ++ D) t := by
  have hold : ∀ j, j ≠ i → slotOf t.swapLog j = slotOf s.swapLog j := by
    intro j hji
    rw [hlog, slotOf, if_neg hji.symm]
  have hnew : slotOf t.swapLog i = some (n * SECTORS_PER_PAGE) := by rw [hlog, slotOf, if_pos rfl]
  have htest : ∀ k, bitmapTest t.swapBitmap k = if k = n then true else bitmapTest s.swapBitmap k := by
    intro k
    rw [hbit, bitmapTest_bitmapSet _ _ _ _ hn]
  -- The slot was free, so no other entry owns it.
  have hother : ∀ j ej, s.spte j = some ej → slotOf s.swapLog j ≠ some (n * SECTORS_PER_PAGE) := by
    intro j ej hj hjn
    obtain ⟨-, -, -, hset⟩ := h.owner j ej _ hj hjn
    rw [Nat.mul_div_cancel _ (by decide)] at hset
    simp [hfree] at hset
  constructor
  · intro j ej m hj hm
    rw [hspte] at hj
    rcases update_cases hj with ⟨rfl, hej⟩ | ⟨hji, hj'⟩
    · cases hej
      cases hnew.symm.trans hm
      refine ⟨htype, hslot, Nat.mul_mod_left _ _, ?_⟩
      rw [htest, Nat.mul_div_cancel _ (by decide), if_pos rfl]
    · obtain ⟨ht, hs, hmod, hset⟩ := h.owner j ej m hj' (hold j hji ▸ hm)
      refine ⟨ht, hs, hmod, ?_⟩
      rw [htest]
      split
      · rfl
      · exact hset
  · intro j ej hj htj hf
    rw [hspte] at hj
    rcases update_cases hj with ⟨rfl, hej⟩ | ⟨hji, hj'⟩
    · cases hej
      rw [hnew, hslot]
    · rw [hold j hji]
      exact h.field j ej hj' htj hf
  · intro j k ej ek m hj hk hjm hkm
    rw [hspte] at hj hk
    rcases update_cases hj with ⟨rfl, -⟩ | ⟨hji, hj'⟩ <;>
      rcases update_cases hk with ⟨rfl, -⟩ | ⟨hki, hk'⟩
    · rfl
    · cases hnew.symm.trans hjm
      exact absurd (hold k hki ▸ hkm) (hother k ek hk')
    · cases hnew.symm.trans hkm
      exact absurd (hold j hji ▸ hjm) (hother j ej hj')
    · exact h.unique j k ej ek m hj' hk' (hold j hji ▸ hjm) (hold k hki ▸ hkm)
  · intro k hset
    rw [htest] at hset
    split at hset
    · next hkn => exact .inl ⟨i, e', by simp [hspte], by rw [hnew, hkn]⟩
    · rcases h.used k hset with ⟨j, ej, hj, hjk⟩ | hD
      · by_cases hji : j = i
        · subst hji
          exact .inr (List.mem_append_left _ (Option.mem_toList.mpr hjk))
        · exact .inl ⟨j, ej, by simp [hspte, hji, hj], (hold j hji).trans hjk⟩
      · exact .inr (List.mem_append_right _ hD)
  · exact h.hidden he hk

/-- The owner of a slot frees it; its entry ends or shows no slot any more. -/
private theorem SlotsOwned.free (h : SlotsOwned D s)
    {o : Option SptEntry} {n : Nat} (he : s.spte i = some e) (hn : slotOf s.swapLog i = some n)
    (ho : ∀ e', o = some e' → e'.frame ≠ none ∧ e'.swapSlot = 0)
    (hspte : t.spte = Function.update s.spte i o) (hlog : t.swapLog = .free n :: s.swapLog)
    (hbit : t.swapBitmap = bitmapSet s.swapBitmap (n / SECTORS_PER_PAGE) false) :
    SlotsOwned D t := by
  obtain ⟨-, -, hmod, hset⟩ := h.owner i e n he hn
  have hold : ∀ j ej, j ≠ i → s.spte j = some ej → slotOf t.swapLog j = slotOf s.swapLog j := by
    intro j ej hji hj
    rw [hlog, slotOf, if_neg]
    intro hjn
    exact hji (h.unique j i ej e n hj he hjn hn)
  have hgone : slotOf t.swapLog i = none := by rw [hlog, slotOf, if_pos hn]
  have htest : ∀ k, bitmapTest t.swapBitmap k =
      if k = n / SECTORS_PER_PAGE then false else bitmapTest s.swapBitmap k := by
    intro k
    rw [hbit, bitmapTest_bitmapSet _ _ _ _ (lt_length_of_bitmapTest hset)]
  constructor
  · intro j ej m hj hm
    rw [hspte] at hj
    rcases update_cases hj with ⟨rfl, -⟩ | ⟨hji, hj'⟩
    · simp [hgone] at hm
    · rw [hold j ej hji hj'] at hm
      obtain ⟨ht, hs, hmod', hset'⟩ := h.owner j ej m hj' hm
      refine ⟨ht, hs, hmod', ?_⟩
      have hne : m / SECTORS_PER_PAGE ≠ n / SECTORS_PER_PAGE := by
        intro heq
        refine hji (h.unique j i ej e n hj' he ?_ hn)
        rw [hm, ← Nat.div_add_mod m SECTORS_PER_PAGE, heq, hmod', ← hmod, Nat.div_add_mod]
      rw [htest, if_neg hne]
      exact hset'
  · intro j ej hj htj hf
    rw [hspte] at hj
    rcases update_cases hj with ⟨rfl, hej⟩ | ⟨hji, hj'⟩
    · obtain ⟨hres, hzero⟩ := ho ej hej
      rcases hf with hf | hf
      · exact absurd hf hres
      · exact absurd hzero hf
    · rw [hold j ej hji hj']
      exact h.field j ej hj' htj hf
  · intro j k ej ek m hj hk hjm hkm
    rw [hspte] at hj hk
    rcases update_cases hj with ⟨rfl, -⟩ | ⟨hji, hj'⟩
    · simp [hgone] at hjm
    · rcases update_cases hk with ⟨rfl, -⟩ | ⟨hki, hk'⟩
      · simp [hgone] at hkm
      · exact h.unique j k ej ek m hj' hk' (hold j ej hji hj' ▸ hjm) (hold k ek hki hk' ▸ hkm)
  · intro k hk
    rw [htest] at hk
    split at hk
    · cases hk
    · next hkn =>
      refine (h.used k hk).imp_left ?_
      rintro ⟨j, ej, hj, hjk⟩
      have hji : j ≠ i := by
        rintro rfl
        cases hn.symm.trans hjk
        exact hkn (Nat.mul_div_cancel _ (by decide)).symm
      exact ⟨j, ej, by simp [hspte, hji, hj], (hold j ej hji hj).trans hjk⟩
  · exact h.given

private theorem SlotsOwned.ended (h : SlotsOwned D s)
    (he : s.spte i = some e) (hk : e.type ≠ .swap ∨ e.swapSlot = 0)
    (hspte : t.spte = Function.update s.spte i none) (hlog : t.swapLog = s.swapLog)
    (hbit : t.swapBitmap = s.swapBitmap) : SlotsOwned ((slotOf s.swapLog i).toList ++ D) t := by
  have hlive : ∀ j ej, t.spte j = some ej → s.spte j = some ej := by
    intro j ej hj
    rw [hspte] at hj
    rcases update_cases hj with ⟨-, hej⟩ | ⟨-, hj'⟩
    · cases hej
    · exact hj'
  constructor
  · intro j ej n hj hn
    rw [hlog] at hn
    rw [hbit]
    exact h.owner j ej n (hlive j ej hj) hn
  · intro j ej hj
    rw [hlog]
    exact h.field j ej (hlive j ej hj)
  · intro j k ej ek n hj hk
    rw [hlog]
    exact h.unique j k ej ek n (hlive j ej hj) (hlive k ek hk)
  · intro k hset
    rw [hbit] at hset
    rcases h.used k hset with ⟨j, ej, hj, hjk⟩ | hD
    · by_cases hji : j = i
      · subst hji
        exact .inr (List.mem_append_left _ (Option.mem_toList.mpr hjk))
      · exact .inl ⟨j, ej, by simp [hspte, hji, hj], by rw [hlog]; exact hjk⟩
    · exact .inr (List.mem_append_right _ hD)
  · exact h.hidden he hk

theorem PageEffect.slotsOwned (heff : PageEffect fl s L fl' t)
    (hc : Consistent fl s) (h : SlotsOwned D s) : SlotsOwned (L ++ D) t := by
  cases heff with
  | quiet hm => exact h.congr hm
  | touch _ _ hm | pin _ _ hm | palloc _ _ hm => exact .congr hm (h.of_eq rfl rfl rfl)
  | insert hi _ _ _ _ ht _ hm => exact .congr hm (h.birth hi ht.1 rfl rfl rfl)
  | evictClean _ _ _ he _ _ _ ht hm =>
    exact .congr hm (h.relink he rfl rfl rfl rfl rfl fun hs => absurd hs ht)
  | evictAlloc _ _ _ he _ _ _ ht hn hb hm =>
    exact .congr hm (h.alloc he ht hn hb rfl rfl rfl rfl rfl)
  | evictKeep _ _ _ he _ _ _ hslot hm =>
    exact .congr hm (h.relink he rfl rfl rfl rfl rfl fun _ _ => .inr hslot)
  | push _ hm | discard _ hm => exact .congr hm (h.of_eq rfl rfl rfl)
  | attach _ _ he _ _ _ hm =>
    exact .congr hm (h.relink he rfl rfl rfl rfl rfl fun _ hf => by cases hf)
  | attachFree _ hi he hpd hinst _ ht hm =>
    have hnone := hc.frame_of_installPage hi he hpd hinst
    refine .congr hm (h.free he (h.field _ _ he ht (.inl hnone)) ?_ rfl rfl rfl)
    intro e' he'
    cases he'
    exact ⟨by simp, rfl⟩

private theorem EndEffect.slotsOwned {p : Pid}
    (heff : EndEffect p i e s L t) (he : s.spte i = some e) (h : SlotsOwned D s) :
    SlotsOwned (L ++ D) t := by
  cases heff with
  | remove _ hk hm => exact .congr hm (h.ended he hk rfl rfl rfl)
  | removeFree hf ht hm =>
    exact .congr hm (h.free he (h.field i e he ht (.inl hf)) (fun _ h => by cases h) rfl rfl rfl)
  | dispose _ _ _ hk hm => exact .congr hm (h.ended he hk (Function.update_idem ..) rfl rfl)
  | disposeFree _ _ _ ht hslot hm =>
    exact .congr hm (h.free he (h.field i e he ht (.inr hslot)) (fun _ h => by cases h)
      (Function.update_idem ..) rfl rfl)

theorem Effect.slotsOwned (heff : Effect fl s L fl' t)
    (hc : Consistent fl s) (h : SlotsOwned D s) : SlotsOwned (L ++ D) t := by
  cases heff with
  | page hp => exact hp.slotsOwned hc h
  | store _ _ _ hm => exact .congr hm (h.of_eq rfl rfl rfl)
  | map hi _ _ _ _ ht hm => exact .congr hm (h.birth hi ht.1 rfl rfl rfl)
  | finish _ he hend => exact hend.slotsOwned he h
  | create _ hm => exact .congr hm (h.of_eq rfl rfl rfl)
  | destroy _ hm => exact .congr hm (h.of_eq rfl rfl rfl)

theorem EffectPath.slotsOwned
    (hp : EffectPath (fl, s) L (fl', t)) (hc : Consistent fl s) (h : SlotsOwned D s) :
    SlotsOwned (L ++ D) t :=
  (Base.Path.preserves (P := fun D a => Consistent a.1 a.2 ∧ SlotsOwned D a.2)
    (fun heff ha => ⟨heff.consistent ha.1, heff.slotsOwned ha.1 ha.2⟩) hp ⟨hc, h⟩).2

/-- After every run, slots in use have an owner or have been given up. -/
theorem slotsOwned_run {pages slots : Nat} {mem : KPage → PageData} {device : Nat → SectorData}
    {inode : InodeNo → Inode} {heap : Nat → Option Nat} {ops : List Op}
    (hr : run step (VmState.init pages slots mem device inode heap) ops = some s) :
    ∃ D, SlotsOwned D s := by
  refine (run_preserves (P := fun s => Consistent .idle s ∧ ∃ D, SlotsOwned D s) ?_
    ⟨consistent_init .., [], slotsOwned_init ..⟩ hr).2
  rintro s op t ⟨hc, D, hD⟩ hs
  obtain ⟨L, hpath, -⟩ := hc.step_path hs
  exact ⟨hc.step hs, _, hpath.slotsOwned hc hD⟩

/-- A step in a state where it cannot take slot 0 from its owner gives up no slot. -/
theorem SlotsOwned.step (h : SlotsOwned [] s) (hc : Consistent .idle s) {op : Op}
    (hzero : ¬ GivesUp s op 0) (hs : Vm.step s op = some t) : SlotsOwned [] t := by
  obtain ⟨L, hpath, hL⟩ := hc.step_path hs
  have ht := hpath.slotsOwned hc h
  cases L with
  | nil => exact ht
  | cons n L =>
    cases ht.given n (by simp)
    exact absurd (hL 0 (by simp)) hzero

/-- A slot is in use exactly if one live entry owns it, and if no process is left, no slot is
in use. -/
structure SlotsExact (s : VmState) : Prop where
  used_iff : ∀ k, bitmapTest s.swapBitmap k = true ↔
    ∃! i, (s.spte i).isSome ∧ slotOf s.swapLog i = some (k * SECTORS_PER_PAGE)
  clear : (∀ p, s.pagedir p = none) → ∀ k, bitmapTest s.swapBitmap k = false

private theorem SlotsOwned.exact (h : SlotsOwned [] s) (hc : Consistent .idle s) :
    SlotsExact s := by
  have howner : ∀ k, bitmapTest s.swapBitmap k = true → ∃ i e, s.spte i = some e ∧
      slotOf s.swapLog i = some (k * SECTORS_PER_PAGE) := by
    intro k hk
    exact (h.used k hk).resolve_right (by simp)
  constructor
  · intro k
    constructor
    · intro hk
      obtain ⟨i, e, he, hi⟩ := howner k hk
      refine ⟨i, ⟨by simp [he], hi⟩, fun j ⟨hj, hjk⟩ => ?_⟩
      obtain ⟨e', he'⟩ := Option.isSome_iff_exists.mp hj
      exact h.unique j i e' e _ he' he hjk hi
    · rintro ⟨i, ⟨hi, hik⟩, -⟩
      obtain ⟨e, he⟩ := Option.isSome_iff_exists.mp hi
      obtain ⟨-, -, -, hset⟩ := h.owner i e _ he hik
      rwa [Nat.mul_div_cancel _ (by decide)] at hset
  · intro hexit k
    by_contra hk
    obtain ⟨i, e, he, -⟩ := howner k (by simpa using hk)
    obtain ⟨p, hp⟩ := hc.owned i e he
    have hlive := hc.live p i hp
    simp [hexit p] at hlive

/-- As long as no step takes slot 0 from its owner, slots are neither leaked nor shared. -/
theorem slots_exact_of_slot_zero_kept {pages slots : Nat} {mem : KPage → PageData}
    {device : Nat → SectorData} {inode : InodeNo → Inode} {heap : Nat → Option Nat}
    {ops : List Op}
    (hzero : Along step (fun s op => ¬ GivesUp s op 0)
      (VmState.init pages slots mem device inode heap) ops)
    (hr : run step (VmState.init pages slots mem device inode heap) ops = some s) :
    SlotsExact s := by
  have hinv : Consistent .idle s ∧ SlotsOwned [] s :=
    run_preserves_along (P := fun s => Consistent .idle s ∧ SlotsOwned [] s)
      (fun _ _ _ h hz hs => ⟨h.1.step hs, h.2.step h.1 hz hs⟩)
      ⟨consistent_init pages slots mem device inode heap,
        slotsOwned_init pages slots mem device inode heap⟩ hzero hr
  exact hinv.2.exact hinv.1

/-- The first eviction of a written page takes slot 0, which its entry then owns. -/
theorem slots_exact_of_slot_zero_kept_firstEviction :
    ∃ s, run step (smallMachine 1 4)
        [.exec 0 (some 0) .clock, .call 0 (.store 0xbffff000 7), .exec 1 (some 0) .clock] = some s ∧
      bitmapTest s.swapBitmap 0 = true ∧ SlotsExact s := by
  obtain ⟨s, hs, hbit⟩ := Option.map_eq_some_iff.mp
    (show (run step (smallMachine 1 4) [.exec 0 (some 0) .clock, .call 0 (.store 0xbffff000 7),
      .exec 1 (some 0) .clock]).map (fun s => bitmapTest s.swapBitmap 0) = some true by
      decide +kernel)
  have hlog : (run step (smallMachine 1 4)
      [.exec 0 (some 0) .clock, .call 0 (.store 0xbffff000 7)]).map VmState.swapLog =
      some [.birth 6] := by decide +kernel
  refine ⟨s, hs, hbit, slots_exact_of_slot_zero_kept ?_ hs⟩
  refine ⟨?_, fun s1 h1 => ⟨id, fun s2 h2 => ⟨?_, fun _ _ => trivial⟩⟩⟩
  · rintro ⟨v, fr, i, -, -, -, hslot⟩
    simp [VmState.init, slotOf] at hslot
  · have hs2 : run step (smallMachine 1 4)
        [.exec 0 (some 0) .clock, .call 0 (.store 0xbffff000 7)] = some s2 := by
      rw [run_cons, show step (smallMachine 1 4) _ = some s1 from h1, Option.bind_some, run_cons, h2]
      rfl
    rw [hs2, Option.map_some, Option.some.injEq] at hlog
    rintro ⟨v, fr, i, -, -, -, hslot⟩
    rw [hlog] at hslot
    simp [slotOf] at hslot

/-- A written page goes to slot 0, comes back through `vm_load_page`, which leaves it the slot,
and goes out again to slot 1. Slot 0 is in use for good, even when its process has ended. -/
theorem slot_zero_leaked :
    ∃ s, run step (smallMachine 1 4)
        [.exec 0 (some 0) .clock, .call 0 (.store 0xbffff000 7), .call 0 (.enter 0xbfffe000),
          .call 0 (.vmLoadPage 0xbfffe000 false .clock),
          .call 0 (.vmLoadPage 0xbffff000 false .clock),
          .call 0 (.vmLoadPage 0xbfffe000 false .clock), .call 0 .exit] = some s ∧
      bitmapTest s.swapBitmap 0 = true ∧ (∀ i, slotOf s.swapLog i ≠ some 0) ∧
      ¬ SlotsExact s := by
  obtain ⟨s, hs, heq⟩ := Option.map_eq_some_iff.mp
    (show (run step (smallMachine 1 4)
        [.exec 0 (some 0) .clock, .call 0 (.store 0xbffff000 7), .call 0 (.enter 0xbfffe000),
          .call 0 (.vmLoadPage 0xbfffe000 false .clock),
          .call 0 (.vmLoadPage 0xbffff000 false .clock),
          .call 0 (.vmLoadPage 0xbfffe000 false .clock), .call 0 .exit]).map
        (fun s => (s.swapLog, bitmapTest s.swapBitmap 0)) =
      some ([.free 8, .alloc 6 8, .alloc 6 0, .birth 7, .birth 6], true) by decide +kernel)
  obtain ⟨hlog, hbit⟩ := Prod.mk.inj heq
  have hnone : ∀ i, slotOf s.swapLog i ≠ some 0 := by
    intro i
    rw [hlog]
    simp only [slotOf]
    grind
  refine ⟨s, hs, hbit, hnone, fun hex => ?_⟩
  obtain ⟨i, ⟨-, hi⟩, -⟩ := (hex.used_iff 0).mp hbit
  exact hnone i (by simpa using hi)

end Pintos.Vm

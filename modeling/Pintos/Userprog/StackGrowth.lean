import Pintos.Userprog.Confinement

/-!
# The two ways to grow the stack

`vm_load_page` and the page fault handler both add a stack page for an address that has no entry.
The handler compares the faulting address with the stack pointer, `vm_load_page` the first address
of its page.
Source `vm/page.c:62–95`, `userprog/exception.c:163–263`.
-/

namespace Pintos.Userprog

open Pintos.Base Pintos.Threads Pintos.Vm

variable {s t u : VmState} {p : Pid} {a esp : Addr} {pin ok : Bool} {r r' : Replacement}
  {res : FaultResult}

/-- An access that the stack may grow for: in the stack area, at most 32 bytes below `esp`. -/
def StackAccess (a esp : Addr) : Prop :=
  STACK_LIMIT ≤ pgRoundDown a ∧ a < PHYS_BASE ∧ esp - 32#32 ≤ a

/-- `esp - 32` lies inside the page of the address, behind its first byte. -/
def Straddles (a esp : Addr) : Prop :=
  STACK_LIMIT ≤ pgRoundDown a ∧ pgRoundDown a < esp - 32#32 ∧ esp - 32#32 ≤ a

instance (a esp : Addr) : Decidable (Straddles a esp) :=
  inferInstanceAs (Decidable (_ ∧ _ ∧ _))

/-- A user access to an absent page. -/
def userFault (a esp : Addr) : Fault := ⟨a, true, true, esp⟩

private theorem pgRoundDown_le (a : Addr) : pgRoundDown a ≤ a := by
  rw [BitVec.le_def, toNat_pgRoundDown]
  omega

private theorem isStackPage_pgRoundDown (a : Addr) :
    isStackPage (pgRoundDown a) = true ↔ STACK_LIMIT ≤ pgRoundDown a ∧ a < PHYS_BASE := by
  have huser := isUserVaddr_pgRoundDown a
  simp only [isUserVaddr, decide_eq_decide] at huser
  simp [isStackPage, huser]

private theorem growStack_isSome (p : Pid) (upage : Addr) (s : VmState) :
    (growStack p upage s).1.isSome = s.mallocSpte.1.isSome := by
  unfold growStack
  split
  · next h => rw [h]
  · next h => rw [h]

/-- When `vm_load_page` finds or adds an entry for a page without one. -/
theorem vmFindSpte_isSome_iff (hnone : sptLookup s p a = none) :
    (vmFindSpte p (pgRoundDown a) s).1.isSome ↔
      (STACK_LIMIT ≤ pgRoundDown a ∧ a < PHYS_BASE ∧ s.userEsp p - 32#32 ≤ pgRoundDown a) ∧
        s.mallocSpte.1.isSome := by
  have hfind : sptLookup s p (pgRoundDown a) = none := by
    rwa [sptLookup, pgRoundDown_pgRoundDown]
  simp only [vmFindSpte, hfind]
  by_cases harea : isStackPage (pgRoundDown a) = true
  · rw [if_pos harea]
    rw [isStackPage_pgRoundDown] at harea
    by_cases hlow : pgRoundDown a < s.userEsp p - 32#32
    · rw [if_pos hlow]
      simp [BitVec.not_le.mpr hlow]
    · rw [if_neg hlow, growStack_isSome]
      simp [harea, BitVec.not_lt.mp hlow]
  · rw [if_neg harea]
    rw [isStackPage_pgRoundDown] at harea
    simp only [Option.isSome_none, Bool.false_eq_true, false_iff, not_and]
    intro h
    exact absurd ⟨h.1, h.2.1⟩ harea

/-- When the handler finds or adds an entry for a user fault in a page without one. -/
theorem faultFindSpte_isSome_iff {flt : Fault} (hnone : sptLookup s p flt.addr = none)
    (hesp : esp ≠ 0#32) :
    (faultFindSpte p flt esp s).1.isSome ↔
      StackAccess flt.addr esp ∧ s.mallocSpte.1.isSome := by
  have hfind : sptLookup s p (pgRoundDown flt.addr) = none := by
    rwa [sptLookup, pgRoundDown_pgRoundDown]
  simp only [faultFindSpte, hfind, StackAccess]
  by_cases harea : isStackPage (pgRoundDown flt.addr) = true
  · have harea' := (isStackPage_pgRoundDown flt.addr).mp harea
    by_cases hlow : flt.addr < esp - 32#32
    · have hno : isStackAccess flt esp = false := by simp [isStackAccess, hlow]
      simp [harea, hno, BitVec.not_le.mpr hlow]
    · have hyes : isStackAccess flt esp = true := by simp [isStackAccess, hlow, hesp]
      simp only [harea, hyes, Bool.and_true, if_true]
      rw [growStack_isSome]
      simp [harea', BitVec.not_lt.mp hlow]
  · simp only [harea, Bool.false_and, Bool.false_eq_true, if_false, Option.isSome_none, false_iff]
    rw [isStackPage_pgRoundDown] at harea
    intro h
    exact absurd ⟨h.1.1, h.1.2.1⟩ harea

/-! ## What is left in the table -/

private theorem growStack_none {upage : Addr} (h : growStack p upage s = (none, t)) :
    t.spt = s.spt ∧ t.spte = s.spte := by
  unfold growStack at h
  split at h
  · cases h
    exact ⟨rfl, rfl⟩
  · cases h

private theorem SpteSearch.none {upage : Addr} (h : SpteSearch p upage s none t) :
    t.spt = s.spt ∧ t.spte = s.spte := by
  cases h with
  | grown _ _ hgrow => exact growStack_none hgrow
  | missing => exact ⟨rfl, rfl⟩

private theorem sptLookup_of_eq (h : t.spt = s.spt ∧ t.spte = s.spte) :
    sptLookup t p a = sptLookup s p a := by
  rw [sptLookup, sptLookup, sptFind, sptFind, h.1, h.2]

private theorem sptLookup_of_path {m : VmState} {i : SpteAddr} {e : SptEntry} {L : List Nat}
    (hm : Consistent .idle m) (hi : i ∈ m.spt p) (he : m.spte i = some e)
    (hup : e.upage = pgRoundDown a) (hpath : PagePath (.idle, m) L (.idle, t)) :
    (sptLookup t p a).isSome := by
  obtain ⟨e', he', hup', -⟩ := hpath.extends.spte i e he
  have hfound := (hpath.consistent hm).sptFind_eq (hpath.extends.spt p i hi) he'
  rw [hup', hup] at hfound
  rw [sptLookup, hfound]
  rfl

/-- `vm_load_page` leaves an entry in the table if it found or added one. -/
theorem Running.vmLoadPage_created (hs : Running p s) (hnone : sptLookup s p a = none)
    (hl : vmLoadPage p a pin r s = some (ok, t)) :
    (sptLookup t p a).isSome ↔ (vmFindSpte p (pgRoundDown a) s).1.isSome := by
  unfold vmLoadPage at hl
  split at hl
  · next m hfind =>
    cases hl
    rw [sptLookup_of_eq (SpteSearch.none (vmFindSpte_search hfind)), hnone, hfind]
  · next i m hfind =>
    rw [hfind]
    simp only [Option.isSome_some, iff_true]
    obtain ⟨hpath, -, hpost⟩ := hs.consistent.search_path hs.alive (vmFindSpte_search hfind)
    obtain ⟨hi, e, he, hup, -⟩ := hpost i rfl
    have hm := hpath.consistent hs.consistent
    simp only [he, Option.bind_eq_bind, Option.bind_some] at hl
    split at hl
    · cases hl
      exact sptLookup_of_path hm hi he hup (.refl _)
    · next hres =>
      obtain ⟨L, hload, -⟩ := hm.vmLoadSpte_path hi he (by simpa using hres) hl
      exact sptLookup_of_path hm hi he hup hload

/-- The handler leaves an entry in the table if it found or added one. -/
theorem Running.pageFault_created {flt : Fault} (hs : Running p s) (huser : flt.user = true)
    (hnone : sptLookup s p flt.addr = none) (hf : pageFault p flt r s = some (res, t)) :
    (sptLookup t p flt.addr).isSome ↔ (faultFindSpte p flt flt.esp s).1.isSome := by
  simp only [pageFault, huser, Bool.not_true, Bool.false_and, Bool.false_eq_true, if_false,
    if_true] at hf
  split at hf
  · next m hfind =>
    cases hf
    rw [sptLookup_of_eq (SpteSearch.none (faultFindSpte_search hfind)), hnone, hfind]
  · next i m hfind =>
    rw [hfind]
    simp only [Option.isSome_some, iff_true]
    obtain ⟨hpath, -, hpost⟩ := hs.consistent.search_path hs.alive (faultFindSpte_search hfind)
    obtain ⟨hi, e, he, hup, hnew⟩ := hpost i rfl
    have hm := hpath.consistent hs.consistent
    have hframe : e.frame = none := by
      rcases hnew with ⟨rfl, hfound⟩ | hnew
      · cases hnone.symm.trans hfound
      · exact hnew
    have hload : ∀ ok v, handlePageLoad p i r m = some (ok, v) →
        (sptLookup v p flt.addr).isSome := by
      intro ok v hv
      obtain ⟨L, hload, -⟩ := hm.handlePageLoad_path hi he (fun h => absurd hframe h) hv
      exact sptLookup_of_path hm hi he hup hload
    split at hf
    · cases hf
    · next hv =>
      cases hf
      exact hload _ _ hv
    · next hv =>
      simp only [kill, huser, if_true, Option.some.injEq] at hf
      cases hf
      exact hload _ _ hv

/-- The two paths create the same stack pages, those of `StackAccess`, exactly for the addresses
whose page `esp - 32` does not straddle. -/
theorem stack_growth_agrees_iff (hs : Running p s) (hnone : sptLookup s p a = none)
    (huser : a < PHYS_BASE) (hlow : 32#32 ≤ esp) (hhigh : esp ≤ PHYS_BASE)
    (hesp : s.userEsp p = esp) (hl : vmLoadPage p a pin r s = some (ok, t))
    (hf : pageFault p (userFault a esp) r' s = some (res, u)) :
    (((sptLookup t p a).isSome ↔ (sptLookup u p a).isSome) ∧
        ((sptLookup u p a).isSome ↔ StackAccess a esp ∧ s.mallocSpte.1.isSome)) ↔
      (s.mallocSpte.1.isSome → ¬ Straddles a esp) := by
  have hne : esp ≠ 0#32 := by
    rintro rfl
    exact absurd hlow (by decide)
  have hload := (hs.vmLoadPage_created hnone hl).trans (vmFindSpte_isSome_iff hnone)
  have hfault : (sptLookup u p a).isSome ↔ StackAccess a esp ∧ s.mallocSpte.1.isSome :=
    (hs.pageFault_created rfl hnone hf).trans (faultFindSpte_isSome_iff hnone hne)
  rw [hesp] at hload
  have hbase : esp - 32#32 ≤ pgRoundDown a → esp - 32#32 ≤ a :=
    fun h => BitVec.le_trans h (pgRoundDown_le a)
  rw [hload, hfault]
  simp only [StackAccess, Straddles, huser, true_and, iff_self, and_true, ← BitVec.not_le]
  tauto

/-- A process that enters the kernel with its stack pointer at `esp`. -/
def stackAt (esp : Addr) : List Vm.Op := [.exec 0 (some 0) .clock, .call 0 (.enter esp)]

/-- A stack pointer at the start of its page: both paths add the page. -/
theorem stack_growth_agrees_iff_pageStart : ∃ s ok t res u,
    run Vm.step (smallMachine 4 4) (stackAt 0xbfffd020) = some s ∧
      vmLoadPage 0 0xbfffd000 false .clock s = some (ok, t) ∧
      pageFault 0 (userFault 0xbfffd000 0xbfffd020) .clock s = some (res, u) ∧
      ((sptLookup t 0 0xbfffd000).isSome ↔ (sptLookup u 0 0xbfffd000).isSome) := by
  obtain ⟨o, ho⟩ := Option.isSome_iff_exists.mp
    (show ((run Vm.step (smallMachine 4 4) (stackAt 0xbfffd020)).bind fun s =>
      (vmLoadPage 0 0xbfffd000 false .clock s).bind fun m =>
      (pageFault 0 (userFault 0xbfffd000 0xbfffd020) .clock s).bind fun n =>
        if (s.pagedir 0).isSome = true ∧ sptLookup s 0 0xbfffd000 = none ∧
          s.userEsp 0 = 0xbfffd020 then some (s, m, n) else none).isSome = true by decide +kernel)
  obtain ⟨s, hs, ⟨ok, t⟩, hl, ⟨res, u⟩, hf, hcond⟩ := by
    simpa only [Option.bind_eq_some_iff] using ho
  split at hcond
  · next h =>
    obtain ⟨halive, hnone, hesp⟩ := h
    have hboth := (stack_growth_agrees_iff ⟨consistent_run hs, halive⟩ hnone (by decide) (by decide)
      (by decide) hesp hl hf).mpr fun _ => by decide
    exact ⟨s, ok, t, res, u, hs, hl, hf, hboth.1⟩
  · cases hcond

/-- An access inside the page of `esp - 32`, above it: the handler adds the page, and
`vm_load_page` refuses it. -/
theorem refused_page_that_a_fault_adds : ∃ s t res u,
    run Vm.step (smallMachine 4 4) (stackAt 0xbfffd100) = some s ∧
      sptLookup s 0 0xbfffd200 = none ∧ s.userEsp 0 = 0xbfffd100 ∧
      StackAccess 0xbfffd200 0xbfffd100 ∧
      vmLoadPage 0 0xbfffd200 false .clock s = some (false, t) ∧
      sptLookup t 0 0xbfffd200 = none ∧
      pageFault 0 (userFault 0xbfffd200 0xbfffd100) .clock s = some (res, u) ∧
      (sptLookup u 0 0xbfffd200).isSome = true := by
  obtain ⟨o, ho⟩ := Option.isSome_iff_exists.mp
    (show ((run Vm.step (smallMachine 4 4) (stackAt 0xbfffd100)).bind fun s =>
      (vmLoadPage 0 0xbfffd200 false .clock s).bind fun m =>
      (pageFault 0 (userFault 0xbfffd200 0xbfffd100) .clock s).bind fun n =>
        if sptLookup s 0 0xbfffd200 = none ∧ s.userEsp 0 = 0xbfffd100 ∧ m.1 = false ∧
          sptLookup m.2 0 0xbfffd200 = none ∧ (sptLookup n.2 0 0xbfffd200).isSome = true then
          some (s, m, n)
        else none).isSome = true by decide +kernel)
  obtain ⟨s, hs, ⟨ok, t⟩, hl, ⟨res, u⟩, hf, hcond⟩ := by
    simpa only [Option.bind_eq_some_iff] using ho
  split at hcond
  · next h =>
    obtain ⟨hnone, hesp, rfl, hrefused, hadded⟩ := h
    exact ⟨s, t, res, u, hs, hnone, hesp, ⟨by decide, by decide, by decide⟩, hl, hrefused, hf,
      hadded⟩
  · cases hcond

end Pintos.Userprog

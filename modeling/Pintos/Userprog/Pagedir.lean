import Mathlib.Logic.Function.Basic
import Pintos.Threads.Vaddr

/-!
# Page directories

Source `userprog/pagedir.c:51–216,266–284`, `threads/pte.h`. A page directory is its
present page tables and the entries of those tables, keyed by page. The MMU's own updates
of the accessed and dirty bits are modelled beside the kernel's. Every operation changes
one entry; its effect on each observer is one equation.
-/

namespace Pintos.Userprog
open Pintos.Threads

variable {u va : Addr} {ptPage w : Bool} {k : KPage} {pd pd' : PageDir}

/-- A user-pool page, named by its index in the pool. -/
abbrev KPage := Nat

/-- The fields of a page table entry that the kernel reads; `threads/pte.h:76–83`. -/
structure Pte where
  present : Bool
  kpage : KPage
  writable : Bool
  accessed : Bool
  dirty : Bool
  deriving DecidableEq, Repr

/-- The all-zero entry of a fresh page table. -/
def Pte.zero : Pte := ⟨false, 0, false, false, false⟩

/-- A page directory: which page tables exist, and their entries by page. -/
structure PageDir where
  table : Addr → Bool
  pte : Addr → Pte

/-- Page directory index; `threads/pte.h:43`. -/
def pdNo (va : Addr) : Addr := va >>> 22

/-- A directory with kernel mappings only; `userprog/pagedir.c:17–24`. -/
def pagedirCreate : PageDir := ⟨fun _ => false, fun _ => Pte.zero⟩

/-- The entry for an address, `none` without a page table;
`userprog/pagedir.c:57–87` with `create` false. -/
def lookupPage (pd : PageDir) (vaddr : Addr) : Option Pte :=
  if pd.table (pdNo vaddr) then some (pd.pte (pgRoundDown vaddr)) else none

/-- Change the entry for an address in place. -/
def PageDir.modify (pd : PageDir) (vaddr : Addr) (f : Pte → Pte) : PageDir :=
  { pd with pte := Function.update pd.pte (pgRoundDown vaddr) (f (pd.pte (pgRoundDown vaddr))) }

/-- Add an empty page table for an address; `userprog/pagedir.c:70–79`. -/
def PageDir.addTable (pd : PageDir) (vaddr : Addr) : PageDir :=
  { table := Function.update pd.table (pdNo vaddr) true
    pte := fun page => if pdNo page = pdNo vaddr then Pte.zero else pd.pte page }

/-- Map a page; `userprog/pagedir.c:99–120`. `ptPage` is the answer of the page allocator
if a page table is needed. `none` is the `false` of the source. -/
def pagedirSetPage (ptPage : Bool) (pd : PageDir) (upage : Addr) (kpage : KPage)
    (writable : Bool) : Option PageDir :=
  let entry : Pte := ⟨true, kpage, writable, false, false⟩
  if pd.table (pdNo upage) then some (pd.modify upage fun _ => entry)
  else if ptPage then some ((pd.addTable upage).modify upage fun _ => entry)
  else none

/-- The page mapped at a user address; `userprog/pagedir.c:126–138`. -/
def pagedirGetPage (pd : PageDir) (uaddr : Addr) : Option KPage :=
  (lookupPage pd uaddr).elim none fun pte => if pte.present then some pte.kpage else none

/-- Mark a page not present, keeping the other bits; `userprog/pagedir.c:144–158`. -/
def pagedirClearPage (pd : PageDir) (upage : Addr) : PageDir :=
  pd.modify upage fun pte => { pte with present := false }

/-- Dirty bit of a page; `userprog/pagedir.c:164–169`. -/
def pagedirIsDirty (pd : PageDir) (vpage : Addr) : Bool :=
  (lookupPage pd vpage).elim false Pte.dirty

/-- Accessed bit of a page; `userprog/pagedir.c:193–198`. -/
def pagedirIsAccessed (pd : PageDir) (vpage : Addr) : Bool :=
  (lookupPage pd vpage).elim false Pte.accessed

/-- Store the accessed bit of a page; `userprog/pagedir.c:202–216`. -/
def pagedirSetAccessed (pd : PageDir) (vpage : Addr) (accessed : Bool) : PageDir :=
  pd.modify vpage fun pte => { pte with accessed := accessed }

/-- Does the MMU let a user store through: the page is present and writable. -/
def mmuWritable (pd : PageDir) (uaddr : Addr) : Bool :=
  (lookupPage pd uaddr).elim false fun pte => pte.present && pte.writable

/-- The MMU's update of an entry on a user access. -/
def mmuAccess (pd : PageDir) (uaddr : Addr) (write : Bool) : PageDir :=
  pd.modify uaddr fun pte => { pte with accessed := true, dirty := pte.dirty || write }

/-- Map a page that is not mapped yet; `userprog/pagedir.c:275–284`. -/
def installPage (ptPage : Bool) (pd : PageDir) (upage : Addr) (kpage : KPage)
    (writable : Bool) : Option PageDir :=
  if pagedirGetPage pd upage = none then pagedirSetPage ptPage pd upage kpage writable
  else none

private theorem pdNo_pgRoundDown (va : Addr) : pdNo (pgRoundDown va) = pdNo va := by
  apply BitVec.eq_of_toNat_eq
  simp only [pdNo, BitVec.toNat_ushiftRight, toNat_pgRoundDown, Nat.shiftRight_eq_div_pow]
  omega

private theorem pdNo_of_same (h : pgRoundDown va = pgRoundDown u) :
    pdNo va = pdNo u := by
  rw [← pdNo_pgRoundDown va, h, pdNo_pgRoundDown]

theorem lookupPage_modify (pd : PageDir) (u va : Addr) (f : Pte → Pte) :
    lookupPage (pd.modify u f) va =
      if pgRoundDown va = pgRoundDown u then (lookupPage pd va).map f else lookupPage pd va := by
  unfold lookupPage PageDir.modify
  by_cases h : pgRoundDown va = pgRoundDown u
  · simp only [h, ↓reduceIte, Function.update_self]
    split <;> rfl
  · simp only [h, ↓reduceIte, Function.update_of_ne h]

-- What a change of the entries does not touch, no observer of it can see.
private theorem elim_lookupPage_modify {β : Type} (g : Pte → β) (d : β) (pd : PageDir)
    (u va : Addr) (f : Pte → Pte) (hg : ∀ pte, g (f pte) = g pte) :
    (lookupPage (pd.modify u f) va).elim d g = (lookupPage pd va).elim d g := by
  rw [lookupPage_modify]
  by_cases hp : pgRoundDown va = pgRoundDown u
  · cases lookupPage pd va <;> simp [hp, hg]
  · simp [hp]

private theorem lookupPage_addTable (pd : PageDir) (u va : Addr) :
    lookupPage (pd.addTable u) va =
      if pdNo va = pdNo u then some Pte.zero else lookupPage pd va := by
  unfold lookupPage PageDir.addTable
  by_cases h : pdNo va = pdNo u
  · simp [h, pdNo_pgRoundDown]
  · simp [h, pdNo_pgRoundDown]

/-- What mapping a page does to every entry: its own is new, the others are unchanged or
the zero entries of a new table. -/
private theorem lookupPage_setPage (h : pagedirSetPage ptPage pd u k w = some pd') (va : Addr) :
    (pgRoundDown va = pgRoundDown u ∧ lookupPage pd' va = some ⟨true, k, w, false, false⟩) ∨
      (pgRoundDown va ≠ pgRoundDown u ∧ (lookupPage pd' va = lookupPage pd va ∨
        (lookupPage pd' va = some Pte.zero ∧ lookupPage pd va = none))) := by
  unfold pagedirSetPage at h
  dsimp only at h
  split at h
  · next ht =>
    cases h
    by_cases hp : pgRoundDown va = pgRoundDown u
    · have hl : lookupPage pd va = some (pd.pte (pgRoundDown va)) := by
        simp [lookupPage, pdNo_of_same hp, ht]
      simp [lookupPage_modify, hp, hl]
    · simp [lookupPage_modify, hp]
  · next ht =>
    split at h
    · cases h
      by_cases hp : pgRoundDown va = pgRoundDown u
      · simp [lookupPage_modify, lookupPage_addTable, hp, pdNo_of_same hp]
      · right
        refine ⟨hp, ?_⟩
        by_cases hd : pdNo va = pdNo u
        · have hl : lookupPage pd va = none := by simp [lookupPage, hd, ht]
          simp [lookupPage_modify, lookupPage_addTable, hp, hd, hl]
        · simp [lookupPage_modify, lookupPage_addTable, hp, hd]
    · cases h

private theorem elim_lookupPage_setPage {β : Type} {g : Pte → β} {d : β}
    (h : pagedirSetPage ptPage pd u k w = some pd') (va : Addr) (hd : g .zero = d) :
    (lookupPage pd' va).elim d g =
      if pgRoundDown va = pgRoundDown u then g ⟨true, k, w, false, false⟩
      else (lookupPage pd va).elim d g := by
  rcases lookupPage_setPage h va with ⟨hp, hl⟩ | ⟨hp, hl | ⟨hl, hn⟩⟩
  · simp [hp, hl]
  · simp [hp, hl]
  · simp [hp, hl, hn, hd]

theorem pagedirGetPage_setPage (h : pagedirSetPage ptPage pd u k w = some pd') (va : Addr) :
    pagedirGetPage pd' va =
      if pgRoundDown va = pgRoundDown u then some k else pagedirGetPage pd va :=
  elim_lookupPage_setPage h va rfl

/-- A freshly mapped page is clean, and the other dirty bits are kept. -/
theorem pagedirIsDirty_setPage (h : pagedirSetPage ptPage pd u k w = some pd') (va : Addr) :
    pagedirIsDirty pd' va =
      if pgRoundDown va = pgRoundDown u then false else pagedirIsDirty pd va :=
  elim_lookupPage_setPage h va rfl

/-- A freshly mapped page is writable as asked, and the other rights are kept. -/
theorem mmuWritable_setPage (h : pagedirSetPage ptPage pd u k w = some pd') (va : Addr) :
    mmuWritable pd' va =
      if pgRoundDown va = pgRoundDown u then w else mmuWritable pd va :=
  elim_lookupPage_setPage h va rfl

private theorem elim_lookupPage_clearPage {β : Type} {g : Pte → β} {d : β}
    (hg : ∀ pte : Pte, g { pte with present := false } = d) (pd : PageDir) (u va : Addr) :
    (lookupPage (pagedirClearPage pd u) va).elim d g =
      if pgRoundDown va = pgRoundDown u then d else (lookupPage pd va).elim d g := by
  rw [pagedirClearPage, lookupPage_modify]
  by_cases hp : pgRoundDown va = pgRoundDown u
  · cases lookupPage pd va <;> simp [hp, hg]
  · simp [hp]

theorem pagedirGetPage_clearPage (pd : PageDir) (u va : Addr) :
    pagedirGetPage (pagedirClearPage pd u) va =
      if pgRoundDown va = pgRoundDown u then none else pagedirGetPage pd va :=
  elim_lookupPage_clearPage (fun _ => rfl) pd u va

theorem pagedirIsDirty_clearPage (pd : PageDir) (u va : Addr) :
    pagedirIsDirty (pagedirClearPage pd u) va = pagedirIsDirty pd va :=
  elim_lookupPage_modify _ _ _ _ _ _ fun _ => rfl

theorem mmuWritable_clearPage (pd : PageDir) (u va : Addr) :
    mmuWritable (pagedirClearPage pd u) va =
      if pgRoundDown va = pgRoundDown u then false else mmuWritable pd va :=
  elim_lookupPage_clearPage (fun _ => rfl) pd u va

@[simp] theorem pagedirGetPage_setAccessed (pd : PageDir) (u va : Addr) (b : Bool) :
    pagedirGetPage (pagedirSetAccessed pd u b) va = pagedirGetPage pd va :=
  elim_lookupPage_modify _ _ _ _ _ _ fun _ => rfl

@[simp] theorem pagedirIsDirty_setAccessed (pd : PageDir) (u va : Addr) (b : Bool) :
    pagedirIsDirty (pagedirSetAccessed pd u b) va = pagedirIsDirty pd va :=
  elim_lookupPage_modify _ _ _ _ _ _ fun _ => rfl

@[simp] theorem mmuWritable_setAccessed (pd : PageDir) (u va : Addr) (b : Bool) :
    mmuWritable (pagedirSetAccessed pd u b) va = mmuWritable pd va :=
  elim_lookupPage_modify _ _ _ _ _ _ fun _ => rfl

@[simp] theorem pagedirGetPage_mmuAccess (pd : PageDir) (u va : Addr) (w : Bool) :
    pagedirGetPage (mmuAccess pd u w) va = pagedirGetPage pd va :=
  elim_lookupPage_modify _ _ _ _ _ _ fun _ => rfl

@[simp] theorem mmuWritable_mmuAccess (pd : PageDir) (u va : Addr) (w : Bool) :
    mmuWritable (mmuAccess pd u w) va = mmuWritable pd va :=
  elim_lookupPage_modify _ _ _ _ _ _ fun _ => rfl

/-- A user store dirties its own page, provided it has an entry; a load dirties none. -/
theorem pagedirIsDirty_mmuAccess (pd : PageDir) (u va : Addr) (w : Bool)
    (hu : (pagedirGetPage pd u).isSome) :
    pagedirIsDirty (mmuAccess pd u w) va =
      (pagedirIsDirty pd va || (w && decide (pgRoundDown va = pgRoundDown u))) := by
  unfold pagedirIsDirty mmuAccess
  rw [lookupPage_modify]
  by_cases hp : pgRoundDown va = pgRoundDown u
  · have hs : lookupPage pd va = lookupPage pd u := by
      simp [lookupPage, pdNo_of_same hp, hp]
    cases hl : lookupPage pd u with
    | none => simp [pagedirGetPage, hl] at hu
    | some pte => simp [hp, hs, hl]
  · simp [hp]

/-- Mappings, dirty bits and permissions depend on the page of the address alone. -/
theorem lookupPage_pgRoundDown (pd : PageDir) (va : Addr) :
    lookupPage pd (pgRoundDown va) = lookupPage pd va := by
  simp only [lookupPage, pdNo_pgRoundDown, pgRoundDown_pgRoundDown]

theorem mmuWritable_of_same (h : pgRoundDown va = pgRoundDown u) :
    mmuWritable pd va = mmuWritable pd u := by
  unfold mmuWritable
  rw [← lookupPage_pgRoundDown pd va, h, lookupPage_pgRoundDown]

theorem pagedirGetPage_of_same (h : pgRoundDown va = pgRoundDown u) :
    pagedirGetPage pd va = pagedirGetPage pd u := by
  unfold pagedirGetPage
  rw [← lookupPage_pgRoundDown pd va, h, lookupPage_pgRoundDown]

theorem table_of_pagedirGetPage (h : pagedirGetPage pd va ≠ none) :
    pd.table (pdNo va) = true := by
  unfold pagedirGetPage lookupPage at h
  by_contra hn
  simp [hn] at h

theorem table_setPage
    (h : pagedirSetPage ptPage pd u k w = some pd') {d : Addr} (hd : pd.table d = true) :
    pd'.table d = true := by
  unfold pagedirSetPage at h
  dsimp only at h
  split at h
  · cases h
    exact hd
  · split at h
    · cases h
      by_cases hu : d = pdNo u
      · simp [PageDir.modify, PageDir.addTable, hu]
      · simpa [PageDir.modify, PageDir.addTable, hu] using hd
    · cases h

theorem installPage_ne_none
    (hn : pagedirGetPage pd u = none) (ht : pd.table (pdNo u) = true) :
    installPage ptPage pd u k w ≠ none := by
  simp [installPage, pagedirSetPage, hn, ht]

theorem pagedirGetPage_create (va : Addr) : pagedirGetPage pagedirCreate va = none := rfl

theorem installPage_some (h : installPage ptPage pd u k w = some pd') :
    pagedirGetPage pd u = none ∧ pagedirSetPage ptPage pd u k w = some pd' := by
  unfold installPage at h
  split at h
  · next hn => exact ⟨hn, h⟩
  · cases h

end Pintos.Userprog

import Mathlib.Data.List.Nodup
import Mathlib.Data.List.Pairwise
import Mathlib.Data.List.Perm.Subperm
import Pintos.Base.Run
import Pintos.Threads.Malloc

/-!
# The invariant of the kernel heap

Every arena is a group of pages in use, apart from the others; every block on a free list lies in
an arena of its descriptor; an arena counts its blocks on the list. An allocated block is a block
of an arena that is not on the free list, or the whole of a big arena. The calls of `malloc`,
`calloc`, `realloc` and `free` keep this, whatever the page allocator answers, and no assertion
fails.
-/

namespace Pintos.Threads.Malloc

open Pintos.Base

/-! ## Blocks in a page -/

/-- Two ranges of addresses do not overlap. -/
def Apart (x m y n : Nat) : Prop := x + m ≤ y ∨ y + n ≤ x

instance (x m y n : Nat) : Decidable (Apart x m y n) := instDecidableOr

private theorem Apart.symm {x m y n : Nat} (h : Apart x m y n) : Apart y n x m := Or.symm h

private theorem Apart.mono {x m y n x' m' y' n' : Nat} (h : Apart x m y n) (hx : x ≤ x')
    (hm : x' + m' ≤ x + m) (hy : y ≤ y') (hn : y' + n' ≤ y + n) : Apart x' m' y' n' := by
  unfold Apart at *
  omega

/-- The address that `arena_to_block` computes. -/
def blockAt (a : Nat) (d : Desc) (idx : Nat) : Nat := a + ARENA_SIZE + idx * d.blockSize

theorem descs_fit : ∀ d ∈ descs, 16 ≤ d.blockSize ∧ d.blockSize ≤ 1024 ∧ 0 < d.blocksPerArena ∧
    d.blocksPerArena * d.blockSize + ARENA_SIZE ≤ PGSIZE := by decide

section Blocks

variable {a i j : Nat} {d : Desc}

private theorem block_end (hd : d ∈ descs) (hi : i < d.blocksPerArena) :
    i * d.blockSize + d.blockSize + 12 ≤ 4096 := by
  have hmul : (i + 1) * d.blockSize ≤ d.blocksPerArena * d.blockSize := Nat.mul_le_mul_right _ hi
  have hfit := (descs_fit d hd).2.2.2
  rw [Nat.succ_mul] at hmul
  unfold ARENA_SIZE PGSIZE at hfit
  omega

theorem pageOf_blockAt (ha : a % PGSIZE = 0) (hd : d ∈ descs) (hi : i < d.blocksPerArena) :
    pageOf (blockAt a d i) = a := by
  have hend := block_end hd hi
  have hpos := (descs_fit d hd).1
  unfold pageOf blockAt ARENA_SIZE PGSIZE at *
  omega

private theorem blockAt_mod (ha : a % PGSIZE = 0) (hd : d ∈ descs) (hi : i < d.blocksPerArena) :
    blockAt a d i % PGSIZE = ARENA_SIZE + i * d.blockSize := by
  have hend := block_end hd hi
  have hpos := (descs_fit d hd).1
  unfold blockAt ARENA_SIZE PGSIZE at *
  omega

theorem blockAt_inj (hd : d ∈ descs) (h : blockAt a d i = blockAt a d j) : i = j := by
  have hpos := (descs_fit d hd).1
  apply Nat.eq_of_mul_eq_mul_right (show 0 < d.blockSize by omega)
  unfold blockAt at h
  omega

private theorem blockAt_apart (hij : i ≠ j) :
    Apart (blockAt a d i) d.blockSize (blockAt a d j) d.blockSize := by
  unfold Apart blockAt
  rcases Nat.lt_or_gt_of_ne hij with h | h
  · left
    have hmul : (i + 1) * d.blockSize ≤ j * d.blockSize := Nat.mul_le_mul_right _ h
    rw [Nat.succ_mul] at hmul
    omega
  · right
    have hmul : (j + 1) * d.blockSize ≤ i * d.blockSize := Nat.mul_le_mul_right _ h
    rw [Nat.succ_mul] at hmul
    omega

private theorem aligned_blockAt (ha : a % PGSIZE = 0) (hd : d ∈ descs) (hi : i < d.blocksPerArena)
    (magic n : Nat) : Arena.aligned ⟨magic, some d, n⟩ (blockAt a d i) = true := by
  have hend := block_end hd hi
  have hofs : addSize (blockAt a d i % PGSIZE) (2 ^ 32 - ARENA_SIZE) = i * d.blockSize := by
    rw [blockAt_mod ha hd hi]
    unfold addSize ARENA_SIZE
    omega
  simp only [Arena.aligned, hofs, Nat.mul_mod_left, decide_true]

/-- The blocks of an arena, in the order of their addresses. -/
def blocksOf (a : Nat) (d : Desc) : List Nat := (List.range d.blocksPerArena).map (blockAt a d)

theorem mem_blocksOf {b : Nat} : b ∈ blocksOf a d ↔ ∃ i, i < d.blocksPerArena ∧ blockAt a d i = b := by
  simp [blocksOf]

theorem nodup_blocksOf (hd : d ∈ descs) : (blocksOf a d).Nodup := by
  apply List.Nodup.map _ List.nodup_range
  intro i j h
  exact blockAt_inj hd h

theorem length_blocksOf : (blocksOf a d).length = d.blocksPerArena := by
  simp [blocksOf]

end Blocks

/-! ## The invariant -/

/-- The pages of an arena. -/
def Arena.pages (a : Arena) : Nat :=
  match a.desc with
  | some _ => 1
  | none => a.freeCnt

/-- Two groups of pages do not overlap. -/
def PagesApart (u v : Nat × Nat) : Prop := Apart u.1 (u.2 * PGSIZE) v.1 (v.2 * PGSIZE)

instance : Std.Symm PagesApart := ⟨fun _ _ h => h.symm⟩

/-- The arena at an address belongs to the descriptor. -/
def Heap.Serves (h : Heap) (a : Nat) (d : Desc) : Prop :=
  ∃ n, h.arena a = some ⟨ARENA_MAGIC, some d, n⟩

/-- Arenas are groups of pages in use, which do not overlap. -/
structure PagesOk (h : Heap) : Prop where
  magic : ∀ a header, h.arena a = some header → header.magic = ARENA_MAGIC
  inUse : ∀ a header, h.arena a = some header → (a, header.pages) ∈ h.used
  paged : ∀ u ∈ h.used, u.1 % PGSIZE = 0 ∧ 0 < u.1 ∧ 0 < u.2 ∧ u.1 + u.2 * PGSIZE ≤ 2 ^ 32
  apart : h.used.Pairwise PagesApart

/-- The allocator's data structures are right. -/
structure HeapOk (h : Heap) : Prop extends PagesOk h where
  desc : ∀ a d, h.Serves a d → d ∈ descs
  listed : ∀ d, ∀ b ∈ h.freeList d, ∃ a, h.Serves a d ∧ b ∈ blocksOf a d
  nodup : ∀ d, (h.freeList d).Nodup
  counted : ∀ a d n, h.arena a = some ⟨ARENA_MAGIC, some d, n⟩ →
    (h.freeList d).countP (pageOf · = a) = n

/-- The block at the address is allocated and has so many bytes. -/
inductive Allocated (h : Heap) : Nat → Nat → Prop
  | small {a i : Nat} {d : Desc} (harena : h.Serves a d) (hi : i < d.blocksPerArena)
      (hfree : blockAt a d i ∉ h.freeList d) : Allocated h (blockAt a d i) d.blockSize
  | big {a n : Nat} (harena : h.arena a = some ⟨ARENA_MAGIC, none, n⟩) :
      Allocated h (a + ARENA_SIZE) (PGSIZE * n - ARENA_SIZE)

theorem Heap.Serves.unique {h : Heap} {a : Nat} {d e : Desc} (hd : h.Serves a d)
    (he : h.Serves a e) : d = e := by
  obtain ⟨n, hn⟩ := hd
  obtain ⟨m, hm⟩ := he
  rw [hn] at hm
  cases hm
  rfl

namespace PagesOk

variable {h : Heap}

theorem aligned (ok : PagesOk h) {a : Nat} {header : Arena} (harena : h.arena a = some header) :
    a % PGSIZE = 0 ∧ 0 < a ∧ 0 < header.pages ∧ a + header.pages * PGSIZE ≤ 2 ^ 32 :=
  ok.paged _ (ok.inUse a header harena)

theorem arenas_apart (ok : PagesOk h) {a a' : Nat} {header header' : Arena}
    (ha : h.arena a = some header) (ha' : h.arena a' = some header') (hne : a ≠ a') :
    Apart a (header.pages * PGSIZE) a' (header'.pages * PGSIZE) := by
  apply ok.apart.forall (ok.inUse a header ha) (ok.inUse a' header' ha')
  intro heq
  exact hne (congrArg Prod.fst heq)

end PagesOk

namespace HeapOk

variable {h : Heap}

theorem serves_aligned (ok : HeapOk h) {a : Nat} {d : Desc} (hs : h.Serves a d) :
    a % PGSIZE = 0 ∧ 0 < a := by
  obtain ⟨n, hn⟩ := hs
  exact ⟨(ok.aligned hn).1, (ok.aligned hn).2.1⟩

theorem pageOf_block (ok : HeapOk h) {a b : Nat} {d : Desc} (hs : h.Serves a d)
    (hb : b ∈ blocksOf a d) : pageOf b = a := by
  obtain ⟨i, hi, rfl⟩ := mem_blocksOf.mp hb
  exact pageOf_blockAt (ok.serves_aligned hs).1 (ok.desc a d hs) hi

theorem blockToArena_small (ok : HeapOk h) {a n i : Nat} {d : Desc}
    (harena : h.arena a = some ⟨ARENA_MAGIC, some d, n⟩) (hi : i < d.blocksPerArena) :
    h.blockToArena (blockAt a d i) = some (a, ⟨ARENA_MAGIC, some d, n⟩) := by
  have hd := ok.desc a d ⟨n, harena⟩
  obtain ⟨halign, hpos, -⟩ := ok.aligned harena
  have hpage := pageOf_blockAt halign hd hi
  unfold Heap.blockToArena
  rw [hpage, harena]
  dsimp only
  rw [if_pos ⟨by omega, rfl, aligned_blockAt halign hd hi _ _⟩]

theorem pageOf_big (ok : PagesOk h) {a : Nat} {header : Arena} (ha : h.arena a = some header) :
    pageOf (a + ARENA_SIZE) = a ∧ (a + ARENA_SIZE) % PGSIZE = ARENA_SIZE := by
  have halign := (ok.aligned ha).1
  unfold pageOf ARENA_SIZE PGSIZE at *
  omega

theorem blockToArena_big (ok : HeapOk h) {a n : Nat}
    (harena : h.arena a = some ⟨ARENA_MAGIC, none, n⟩) :
    h.blockToArena (a + ARENA_SIZE) = some (a, ⟨ARENA_MAGIC, none, n⟩) := by
  obtain ⟨-, hpos, -⟩ := ok.aligned harena
  obtain ⟨hpage, hmod⟩ := pageOf_big ok.toPagesOk harena
  unfold Heap.blockToArena
  rw [hpage, harena]
  dsimp only
  rw [if_pos ⟨by omega, rfl, by simp [Arena.aligned, hmod]⟩]

theorem not_allocated (ok : HeapOk h) {d : Desc} {b z : Nat} (hb : b ∈ h.freeList d) :
    ¬ Allocated h b z := by
  intro hz
  obtain ⟨a, hs, hmem⟩ := ok.listed d b hb
  have hpage := ok.pageOf_block hs hmem
  cases hz with
  | @small a' i e harena hi hfree =>
    rw [pageOf_blockAt (ok.serves_aligned harena).1 (ok.desc a' e harena) hi] at hpage
    subst hpage
    obtain rfl := hs.unique harena
    exact hfree hb
  | @big a' n harena =>
    rw [(pageOf_big ok.toPagesOk harena).1] at hpage
    subst hpage
    obtain ⟨m, hm⟩ := hs
    rw [harena] at hm
    cases hm

end HeapOk

namespace Allocated

variable {h : Heap} {p q z w : Nat}

theorem inside (hp : Allocated h p z) (ok : HeapOk h) :
    ∃ header, h.arena (pageOf p) = some header ∧ pageOf p + ARENA_SIZE ≤ p ∧
      p + z ≤ pageOf p + header.pages * PGSIZE := by
  cases hp with
  | @small a i d harena hi _ =>
    obtain ⟨n, hn⟩ := harena
    have hd := ok.desc a d ⟨n, hn⟩
    have hend := block_end hd hi
    rw [pageOf_blockAt (ok.aligned hn).1 hd hi]
    refine ⟨_, hn, ?_, ?_⟩
    · unfold blockAt
      omega
    · simp only [blockAt, Arena.pages, ARENA_SIZE, PGSIZE]
      omega
  | @big a n harena =>
    have hpos := (ok.aligned harena).2.2.1
    rw [(HeapOk.pageOf_big ok.toPagesOk harena).1]
    refine ⟨_, harena, Nat.le_refl _, ?_⟩
    simp only [Arena.pages, ARENA_SIZE, PGSIZE] at *
    omega

theorem apart (hp : Allocated h p z) (hq : Allocated h q w) (ok : HeapOk h) (hne : p ≠ q) :
    Apart p z q w := by
  obtain ⟨header, ha, hlow, hhigh⟩ := hp.inside ok
  obtain ⟨header', ha', hlow', hhigh'⟩ := hq.inside ok
  by_cases hpage : pageOf p = pageOf q
  · cases hp with
    | @small a i d harena hi _ =>
      rw [pageOf_blockAt (ok.serves_aligned harena).1 (ok.desc a d harena) hi] at hpage ha
      cases hq with
      | @small a' j e harena' hj _ =>
        rw [pageOf_blockAt (ok.serves_aligned harena').1 (ok.desc a' e harena') hj] at hpage
        subst hpage
        obtain rfl := harena.unique harena'
        apply blockAt_apart
        rintro rfl
        exact hne rfl
      | @big a' n harena' =>
        rw [(HeapOk.pageOf_big ok.toPagesOk harena').1] at hpage
        subst hpage
        obtain ⟨m, hm⟩ := harena
        rw [harena'] at hm
        cases hm
    | @big a n harena =>
      rw [(HeapOk.pageOf_big ok.toPagesOk harena).1] at hpage
      cases hq with
      | @small a' j e harena' hj _ =>
        rw [pageOf_blockAt (ok.serves_aligned harena').1 (ok.desc a' e harena') hj] at hpage
        subst hpage
        obtain ⟨m, hm⟩ := harena'
        rw [harena] at hm
        cases hm
      | @big a' m harena' =>
        rw [(HeapOk.pageOf_big ok.toPagesOk harena').1] at hpage
        subst hpage
        exact absurd rfl hne
  · exact (ok.arenas_apart ha ha' hpage).mono (by omega) hhigh (by omega) hhigh'

theorem header_apart (hp : Allocated h p z) (ok : HeapOk h) {a : Nat} {header : Arena}
    (ha : h.arena a = some header) : Apart p z a ARENA_SIZE := by
  obtain ⟨header', ha', hlow, hhigh⟩ := hp.inside ok
  by_cases heq : pageOf p = a
  · subst heq
    exact Or.inr hlow
  · have hpages := (ok.aligned ha).2.2.1
    refine (ok.arenas_apart ha' ha heq).mono (by omega) hhigh (Nat.le_refl _) ?_
    unfold ARENA_SIZE PGSIZE
    omega

theorem blockSize_eq (hp : Allocated h p z) (ok : HeapOk h) : h.blockSize p = some z := by
  cases hp with
  | small harena hi _ =>
    obtain ⟨n, hn⟩ := harena
    simp [Heap.blockSize, ok.blockToArena_small hn hi]
  | big harena =>
    have hmod := (HeapOk.pageOf_big ok.toPagesOk harena).2
    simp [Heap.blockSize, ok.blockToArena_big harena, hmod]

end Allocated

/-! ## Pages come and go -/

/-- The page allocator may hand out these pages: they are kernel pages, and not in use. -/
def Available (h : Heap) (pageCnt a : Nat) : Prop :=
  a % PGSIZE = 0 ∧ PHYS_BASE.toNat ≤ a ∧ a + pageCnt * PGSIZE ≤ 2 ^ 32 ∧
    ∀ u ∈ h.used, PagesApart (a, pageCnt) u

instance (u v : Nat × Nat) : Decidable (PagesApart u v) := instDecidableOr

instance (h : Heap) (pageCnt a : Nat) : Decidable (Available h pageCnt a) := instDecidableAnd

theorem PagesOk.arena_none {h : Heap} (ok : PagesOk h) {pageCnt a : Nat} (hcnt : 0 < pageCnt)
    (hav : Available h pageCnt a) : h.arena a = none := by
  cases ha : h.arena a with
  | none => rfl
  | some header =>
    have hapart := hav.2.2.2 _ (ok.inUse a header ha)
    have hpos := (ok.aligned ha).2.2.1
    unfold PagesApart Apart PGSIZE at hapart
    omega

theorem PagesOk.add {h h' : Heap} (ok : PagesOk h) {a : Nat} {header : Arena}
    (hmagic : header.magic = ARENA_MAGIC) (hcnt : 0 < header.pages)
    (hav : Available h header.pages a) (hused : h'.used = (a, header.pages) :: h.used)
    (harena : h'.arena = Function.update h.arena a (some header)) : PagesOk h' where
  magic x hx := by
    rw [harena]
    by_cases hxa : x = a
    · subst hxa
      rw [Function.update_self]
      rintro ⟨⟩
      exact hmagic
    · rw [Function.update_of_ne hxa]
      exact ok.magic x hx
  inUse x hx := by
    rw [harena, hused]
    by_cases hxa : x = a
    · subst hxa
      rw [Function.update_self]
      rintro ⟨⟩
      exact List.mem_cons_self
    · rw [Function.update_of_ne hxa]
      exact fun hs => List.mem_cons_of_mem _ (ok.inUse x hx hs)
  paged u hu := by
    rw [hused] at hu
    rcases List.mem_cons.mp hu with rfl | hu
    · have hpos : 0 < PHYS_BASE.toNat := by decide
      exact ⟨hav.1, Nat.lt_of_lt_of_le hpos hav.2.1, hcnt, hav.2.2.1⟩
    · exact ok.paged u hu
  apart := by
    rw [hused]
    exact List.pairwise_cons.mpr ⟨hav.2.2.2, ok.apart⟩

theorem PagesOk.drop {h h' : Heap} (ok : PagesOk h) {a n : Nat}
    (hused : h'.used = h.used.erase (a, n))
    (harena : h'.arena = Function.update h.arena a none) : PagesOk h' where
  magic x hx := by
    rw [harena]
    by_cases hxa : x = a
    · subst hxa
      rw [Function.update_self]
      rintro ⟨⟩
    · rw [Function.update_of_ne hxa]
      exact ok.magic x hx
  inUse x hx := by
    rw [harena, hused]
    by_cases hxa : x = a
    · subst hxa
      rw [Function.update_self]
      rintro ⟨⟩
    · rw [Function.update_of_ne hxa]
      intro hs
      apply (List.mem_erase_of_ne ?_).mpr (ok.inUse x hx hs)
      intro heq
      exact hxa (congrArg Prod.fst heq)
  paged u hu := by
    rw [hused] at hu
    exact ok.paged u (List.mem_of_mem_erase hu)
  apart := by
    rw [hused]
    exact ok.apart.sublist List.erase_sublist

theorem PagesOk.setHeader {h h' : Heap} (ok : PagesOk h) {a : Nat} {header header' : Arena}
    (ha : h.arena a = some header) (hmagic : header'.magic = ARENA_MAGIC)
    (hpages : header'.pages = header.pages) (hused : h'.used = h.used)
    (harena : h'.arena = Function.update h.arena a (some header')) : PagesOk h' where
  magic x hx := by
    rw [harena]
    by_cases hxa : x = a
    · subst hxa
      rw [Function.update_self]
      rintro ⟨⟩
      exact hmagic
    · rw [Function.update_of_ne hxa]
      exact ok.magic x hx
  inUse x hx := by
    rw [harena, hused]
    by_cases hxa : x = a
    · subst hxa
      rw [Function.update_self]
      rintro ⟨⟩
      rw [hpages]
      exact ok.inUse x header ha
    · rw [Function.update_of_ne hxa]
      exact ok.inUse x hx
  paged u hu := ok.paged u (hused ▸ hu)
  apart := by
    rw [hused]
    exact ok.apart

end Pintos.Threads.Malloc
